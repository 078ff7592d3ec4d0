/-
# All or nothing

A step whose plan passes the checks can be carried out to its end, so a step that
fails leaves the tracker as it was. The checks look at each snapshot on its own,
against the last one of its lifespan as it is before the step. That suffices because
a lifespan never gets two different snapshots in one step: the tracker leads
different handles to different lifespans, and fragments with one predecessor are one
fragment.

Key definitions: `Tracker.Sound`, `Tracker.Reached`, `Plan.ofOutcomes`.
Key theorems: `Tracker.commit_checked`, `Tracker.Reached.sound`, `Tracker.add_all_or_nothing`.
-/
import Lineage.Proofs.Matching.Places
import Lineage.Proofs.Tracking.Planning
import Mathlib.Data.List.Induction

namespace Lineage

/-! ### Adding snapshots -/

namespace Lifespan

/-- A lifespan with one more snapshot, whatever that is. -/
def push (l : Lifespan) (s : Snapshot) : Lifespan :=
  { l with later := l.later ++ [s] }

theorem snapshots_push (l : Lifespan) (s : Snapshot) : (l.push s).snapshots = l.snapshots ++ [s] :=
  rfl

@[simp] theorem last_push (l : Lifespan) (s : Snapshot) : (l.push s).last = s := by
  simp [push, last]

theorem add_eq_ok {l : Lifespan} {s : Snapshot} (h : l.requireNext s = .ok ()) :
    l.add s = .ok (l.push s) := by
  unfold add
  rw [h]
  rfl

theorem requireNext_eq_ok {l : Lifespan} {s : Snapshot} :
    l.requireNext s = .ok () ↔ l.last.ordinal ≤ s.ordinal ∧ l.last.changes ≤ s.changes := by
  unfold requireNext
  split
  · simp only [reduceCtorEq, false_iff]
    omega
  · split
    · simp only [reduceCtorEq, false_iff]
      omega
    · simp only [true_iff]
      omega

theorem requireNext_push (l : Lifespan) (s : Snapshot) : (l.push s).requireNext s = .ok () := by
  rw [requireNext_eq_ok, last_push]
  exact ⟨Int.le_refl _, Int.le_refl _⟩

end Lifespan

namespace Tracker

/-- Lifespans with one update made. -/
def push (lifespans : List Lifespan) (u : Nat × Snapshot) : List Lifespan :=
  lifespans.modify u.1 fun l => l.push u.2

theorem getElem?_push (lifespans : List Lifespan) (u : Nat × Snapshot) (i : Nat) :
    (push lifespans u)[i]? =
      if u.1 = i then lifespans[i]?.map (·.push u.2) else lifespans[i]? := by
  unfold push
  rw [List.getElem?_modify]
  split <;> simp

@[simp] theorem length_push (lifespans : List Lifespan) (u : Nat × Snapshot) :
    (push lifespans u).length = lifespans.length :=
  List.length_modify _ _ _

theorem set_eq_push {lifespans : List Lifespan} {k : Nat} {l : Lifespan} (s : Snapshot)
    (hk : lifespans[k]? = some l) : lifespans.set k (l.push s) = push lifespans (k, s) := by
  apply List.ext_getElem?
  intro i
  rw [List.getElem?_set, getElem?_push]
  by_cases e : k = i
  · subst e
    rw [if_pos rfl, if_pos rfl, if_pos (List.getElem?_eq_some_iff.mp hk).1, hk]
    rfl
  · rw [if_neg e, if_neg e]

theorem checkUpdates_eq_ok {lifespans : List Lifespan} : ∀ {updates : List (Nat × Snapshot)},
    checkUpdates lifespans updates = .ok () →
      ∀ u ∈ updates, ∀ l, lifespans[u.1]? = some l → l.requireNext u.2 = .ok ()
  | [], _, _, hu, _, _ => by cases hu
  | (k, s) :: rest, h, u, hu, l, hl => by
    unfold checkUpdates at h
    cases hk : lifespans[k]? with
    | none =>
      rw [hk] at h
      rcases List.mem_cons.mp hu with rfl | hu
      · cases hk.symm.trans hl
      · exact checkUpdates_eq_ok h u hu l hl
    | some l' =>
      rw [hk] at h
      cases hr : l'.requireNext s with
      | error e =>
        simp only [hr] at h
        cases h
      | ok _ =>
        simp only [hr] at h
        rcases List.mem_cons.mp hu with rfl | hu
        · cases hk.symm.trans hl
          exact hr
        · exact checkUpdates_eq_ok h u hu l hl

/-- Updates that pass the checks one by one can all be made, if those of one lifespan
are all the same. -/
theorem applyUpdates_eq_ok : ∀ {updates : List (Nat × Snapshot)} {lifespans : List Lifespan},
    (∀ u ∈ updates, ∀ l, lifespans[u.1]? = some l → l.requireNext u.2 = .ok ()) →
      (∀ u ∈ updates, ∀ v ∈ updates, u.1 = v.1 → u = v) →
        applyUpdates lifespans updates = (.ok (), updates.foldl push lifespans)
  | [], lifespans, _, _ => rfl
  | (k, s) :: rest, lifespans, fits, same => by
    have same_rest : ∀ u ∈ rest, ∀ v ∈ rest, u.1 = v.1 → u = v := fun u hu v hv =>
      same u (List.mem_cons_of_mem _ hu) v (List.mem_cons_of_mem _ hv)
    unfold applyUpdates
    rw [List.foldl_cons]
    cases hk : lifespans[k]? with
    | none =>
      have stays : push lifespans (k, s) = lifespans :=
        List.modify_eq_self (List.getElem?_eq_none_iff.mp hk)
      rw [stays]
      exact applyUpdates_eq_ok (fun u hu => fits u (List.mem_cons_of_mem _ hu)) same_rest
    | some l =>
      have fit := fits (k, s) List.mem_cons_self l hk
      dsimp only
      rw [Lifespan.add_eq_ok fit]
      dsimp only
      rw [set_eq_push s hk]
      refine applyUpdates_eq_ok (fun u hu l' hl' => ?_) same_rest
      rw [getElem?_push] at hl'
      by_cases e : k = u.1
      · -- a second update of this lifespan is the first one again
        have again := same (k, s) List.mem_cons_self u (List.mem_cons_of_mem _ hu) e
        subst again
        rw [if_pos rfl, hk] at hl'
        cases hl'
        exact Lifespan.requireNext_push l s
      · rw [if_neg e] at hl'
        exact fits u (List.mem_cons_of_mem _ hu) l' hl'

end Tracker

/-! ### Plans as lists of outcomes -/

/-- The place of the lifespan of a target, if `next` is the place of one that begins. -/
def Tracker.Outcome.place (next : Nat) : Tracker.Outcome → Nat
  | .continues k _ => k
  | .begins _ => next

namespace Plan

/-- The updates of lifespans among outcomes. -/
def updatesOf (done : List (Fragment × Tracker.Outcome)) : List (Nat × Snapshot) :=
  done.filterMap fun x =>
    match x.2 with
    | .continues k s => some (k, s)
    | .begins _ => none

/-- The targets among outcomes that begin a lifespan, with their snapshots. -/
def beginning (done : List (Fragment × Tracker.Outcome)) : List (Fragment × Snapshot) :=
  done.filterMap fun x =>
    match x.2 with
    | .continues _ _ => none
    | .begins s => some (x.1, s)

theorem mem_updatesOf {done : List (Fragment × Tracker.Outcome)} {u : Nat × Snapshot} :
    u ∈ updatesOf done ↔ ∃ f, (f, .continues u.1 u.2) ∈ done := by
  unfold updatesOf
  rw [List.mem_filterMap]
  constructor
  · rintro ⟨⟨f, o⟩, hx, e⟩
    cases o with
    | continues k s =>
      cases e
      exact ⟨f, hx⟩
    | begins s => cases e
  · rintro ⟨f, hf⟩
    exact ⟨_, hf, rfl⟩

theorem foldl_take (count : Nat) : ∀ (done : List (Fragment × Tracker.Outcome)) (plan : Plan),
    (done.foldl (take count) plan).updates = plan.updates ++ updatesOf done ∧
      (done.foldl (take count) plan).started =
        plan.started ++ (beginning done).map fun x => .start x.2
  | [], plan => by simp [updatesOf, beginning]
  | (f, o) :: rest, plan => by
    obtain ⟨updates, started⟩ := foldl_take count rest (plan.take count (f, o))
    rw [List.foldl_cons, updates, started]
    cases o <;> simp [take, updatesOf, beginning]

/-- The plan that outcomes make up, for a tracker with `count` lifespans. -/
def ofOutcomes (count : Nat) (done : List (Fragment × Tracker.Outcome)) : Plan :=
  done.foldl (take count) ⟨[], [], []⟩

@[simp] theorem updates_ofOutcomes (count : Nat) (done : List (Fragment × Tracker.Outcome)) :
    (ofOutcomes count done).updates = updatesOf done :=
  (foldl_take count done _).1

@[simp] theorem started_ofOutcomes (count : Nat) (done : List (Fragment × Tracker.Outcome)) :
    (ofOutcomes count done).started = (beginning done).map fun x => .start x.2 :=
  (foldl_take count done _).2

/-- What a plan leads to after one more target. -/
theorem lookup_take (count : Nat) (plan : Plan) (x : Fragment × Tracker.Outcome) (h : Nat) :
    (plan.take count x).tracked.lookup h =
      if h = x.1.handle then some (x.2.place (count + plan.started.length))
      else plan.tracked.lookup h := by
  obtain ⟨f, o⟩ := x
  cases o with
  | continues k s => exact lookup_put f.handle k h plan.tracked
  | begins s => exact lookup_put f.handle (count + plan.started.length) h plan.tracked

/-- A plan leads from a handle to the lifespan that a target with this handle
continues or begins. -/
theorem led_of_lookup {count : Nat} {done : List (Fragment × Tracker.Outcome)} {h k : Nat}
    (hl : (ofOutcomes count done).tracked.lookup h = some k) :
    (∃ f s, (f, .continues k s) ∈ done ∧ f.handle = h) ∨
      (count ≤ k ∧ ∃ f s, (beginning done)[k - count]? = some (f, s) ∧ f.handle = h) := by
  induction done using List.reverseRecOn with
  | nil => cases hl
  | append_singleton done x ih =>
    obtain ⟨f, o⟩ := x
    have split : beginning (done ++ [(f, o)]) = beginning done ++ beginning [(f, o)] :=
      List.filterMap_append
    unfold ofOutcomes at hl
    rw [List.foldl_append, List.foldl_cons, List.foldl_nil, lookup_take] at hl
    by_cases e : h = f.handle
    · rw [if_pos e] at hl
      cases o with
      | continues k' s =>
        obtain rfl : k' = k := Option.some.inj hl
        exact .inl ⟨f, s, by simp, e.symm⟩
      | begins s =>
        have place : count + (beginning done).length = k := by
          rw [← List.length_map, ← started_ofOutcomes count done]
          exact Option.some.inj hl
        have last : (beginning (done ++ [(f, .begins s)]))[k - count]? = some (f, s) := by
          rw [split, ← place, Nat.add_sub_cancel_left, List.getElem?_append_right (Nat.le_refl _),
            Nat.sub_self]
          rfl
        exact .inr ⟨by omega, f, s, last, e.symm⟩
    · rw [if_neg e] at hl
      rcases ih hl with ⟨g, s, hg, e'⟩ | ⟨le, g, s, hg, e'⟩
      · exact .inl ⟨g, s, List.mem_append_left _ hg, e'⟩
      · refine .inr ⟨le, g, s, ?_, e'⟩
        rw [split, List.getElem?_append_left (List.getElem?_eq_some_iff.mp hg).1, hg]

theorem exists_lookup {count : Nat} {done : List (Fragment × Tracker.Outcome)}
    {x : Fragment × Tracker.Outcome} (hx : x ∈ done) :
    ∃ k, (ofOutcomes count done).tracked.lookup x.1.handle = some k := by
  induction done using List.reverseRecOn with
  | nil => cases hx
  | append_singleton done y ih =>
    unfold ofOutcomes
    rw [List.foldl_append, List.foldl_cons, List.foldl_nil, lookup_take]
    by_cases e : x.1.handle = y.1.handle
    · exact ⟨_, if_pos e⟩
    · rw [if_neg e]
      rcases List.mem_append.mp hx with hx | hx
      · exact ih hx
      · exact absurd (congrArg (·.1.handle) (List.mem_singleton.mp hx)) e

/-- The fragments of outcomes are those of the targets, and so they share no handles if the
targets do not. -/
theorem fragments_of_targets {fs : List Fragment}
    {done : List (Fragment × Tracker.Outcome)} (targets : fs.map some = done.map (some ·.1))
    (nodup : (fs.map (·.handle)).Nodup) :
    fs = done.map Prod.fst ∧ (done.map (·.1.handle)).Nodup := by
  have fragments : fs = done.map Prod.fst := by
    apply List.map_injective_iff.mpr fun _ _ => Option.some.inj
    rw [targets, List.map_map]
    rfl
  rw [fragments, List.map_map] at nodup
  exact ⟨fragments, nodup⟩

end Plan

namespace Tracker

/-! ### Sound trackers -/

/-- Handles lead to lifespans, and different handles to different ones. -/
structure Sound (t : Tracker) : Prop where
  inside : ∀ h k, t.tracked.lookup h = some k → k < t.lifespans.length
  apart : ∀ h h' k, t.tracked.lookup h = some k → t.tracked.lookup h' = some k → h = h'

theorem sound_empty : empty.Sound :=
  ⟨fun _ _ h => (by cases h), fun _ _ _ h => (by cases h)⟩

section Step

variable {t : Tracker} {m : Matching} {a : Archive} {done : List (Fragment × Outcome)}

theorem Sound.handle_eq (ht : t.Sound) (hm : m.WellFormed)
    (yields : ∀ x ∈ done, t.Yields m a x.1 x.2) {f g : Fragment} {k : Nat} {s s' : Snapshot}
    (hf : (f, .continues k s) ∈ done) (hg : (g, .continues k s') ∈ done) :
    f.handle = g.handle := by
  obtain ⟨p, l, -, hp, hfind, -⟩ := yields _ hf
  obtain ⟨p', l', -, hp', hfind', -⟩ := yields _ hg
  have same := ht.apart _ _ _ (find_eq_some.mp hfind).1 (find_eq_some.mp hfind').1
  exact hm.handle_eq_of_predecessor hp hp' same

theorem Sound.lt_of_continues (ht : t.Sound) (yields : ∀ x ∈ done, t.Yields m a x.1 x.2)
    {x : Fragment × Outcome} (hx : x ∈ done) {k : Nat} {s : Snapshot}
    (e : x.2 = .continues k s) : k < t.lifespans.length := by
  have yield := yields x hx
  rw [e] at yield
  obtain ⟨p, l, -, -, hfind, -⟩ := yield
  exact ht.inside _ _ (find_eq_some.mp hfind).1

theorem Sound.updates_eq (ht : t.Sound) (hm : m.Made) (targets : m.targets = done.map (some ·.1))
    (yields : ∀ x ∈ done, t.Yields m a x.1 x.2) :
    ∀ u ∈ Plan.updatesOf done, ∀ v ∈ Plan.updatesOf done, u.1 = v.1 → u = v := by
  rintro ⟨k, s⟩ hu ⟨k', s'⟩ hv e
  obtain rfl : k = k' := e
  obtain ⟨f, hf⟩ := Plan.mem_updatesOf.mp hu
  obtain ⟨g, hg⟩ := Plan.mem_updatesOf.mp hv
  have among : ∀ {x}, x ∈ done → some x.1 ∈ m.targets := by
    intro x hx
    rw [targets]
    exact List.mem_map_of_mem hx
  have same : f = g := hm.byHandle_targets f g (among hf) (among hg)
    (ht.handle_eq hm.wellFormed yields hf hg)
  subst same
  have once := (yields _ hf).unique (yields (f, .continues k s') hg)
  cases once
  rfl

theorem Sound.nodup_updates (ht : t.Sound) (hm : m.WellFormed)
    (yields : ∀ x ∈ done, t.Yields m a x.1 x.2) (nodup : (done.map (·.1.handle)).Nodup) :
    ((Plan.updatesOf done).map Prod.fst).Nodup := by
  induction done with
  | nil => exact List.nodup_nil
  | cons x rest ih =>
    obtain ⟨f, o⟩ := x
    obtain ⟨new, nodup⟩ := List.nodup_cons.mp nodup
    have ih := ih (fun y hy => yields y (List.mem_cons_of_mem _ hy)) nodup
    cases o with
    | begins s => exact ih
    | continues k s =>
      refine List.nodup_cons.mpr ⟨fun hk => new ?_, ih⟩
      obtain ⟨⟨k', s'⟩, hu, rfl⟩ := List.mem_map.mp hk
      obtain ⟨g, hg⟩ := Plan.mem_updatesOf.mp hu
      have same := ht.handle_eq hm yields List.mem_cons_self (List.mem_cons_of_mem _ hg)
      exact List.mem_map.mpr ⟨_, hg, same.symm⟩

end Step

/-! ### Carrying out a plan -/

/-- The tracker that a plan leaves behind if all of it is carried out. -/
def carriedOut (t : Tracker) (plan : Plan) : Tracker :=
  ⟨plan.updates.foldl push (t.lifespans ++ plan.started), plan.tracked⟩

theorem length_foldl_push : ∀ (updates : List (Nat × Snapshot)) (lifespans : List Lifespan),
    (updates.foldl push lifespans).length = lifespans.length
  | [], _ => rfl
  | u :: rest, lifespans => by
    rw [List.foldl_cons, length_foldl_push rest, length_push]

theorem sound_carriedOut {t : Tracker} {m : Matching} {a : Archive}
    {done : List (Fragment × Outcome)} (ht : t.Sound) (hm : m.WellFormed)
    (yields : ∀ x ∈ done, t.Yields m a x.1 x.2) :
    (t.carriedOut (Plan.ofOutcomes t.lifespans.length done)).Sound := by
  refine ⟨fun h k hk => ?_, fun h h' k hk hk' => ?_⟩
  · unfold carriedOut
    rw [length_foldl_push, List.length_append, Plan.started_ofOutcomes, List.length_map]
    rcases Plan.led_of_lookup hk with ⟨f, s, hf, -⟩ | ⟨le, f, s, hf, -⟩
    · have lt := ht.lt_of_continues yields hf rfl
      omega
    · have lt := (List.getElem?_eq_some_iff.mp hf).1
      omega
  · rcases Plan.led_of_lookup hk with ⟨f, s, hf, rfl⟩ | ⟨le, f, s, hf, rfl⟩
    · have lt := ht.lt_of_continues yields hf rfl
      rcases Plan.led_of_lookup hk' with ⟨g, s', hg, rfl⟩ | ⟨le, -⟩
      · exact ht.handle_eq hm yields hf hg
      · omega
    · rcases Plan.led_of_lookup hk' with ⟨g, s', hg, -⟩ | ⟨-, g, s', hg, rfl⟩
      · have lt := ht.lt_of_continues yields hg rfl
        omega
      · cases hf.symm.trans hg
        rfl

section Step

variable {t : Tracker} {m : Matching} {a : Archive} {plan : Plan}

theorem answer_checkedPlan (h : (t.checkedPlan m).answer a = .ok plan) :
    (∃ done : List (Fragment × Outcome), m.targets = done.map (some ·.1) ∧
      (∀ x ∈ done, t.Yields m ((t.checkedPlan m).after a) x.1 x.2) ∧
        plan = Plan.ofOutcomes t.lifespans.length done) ∧
      checkUpdates t.lifespans plan.updates = .ok () := by
  unfold checkedPlan at h ⊢
  obtain ⟨planned, hp, h⟩ := Work.exists_of_answer_bind h
  rw [Work.after_bind_ok hp]
  obtain ⟨_, hc, h⟩ := Work.exists_of_answer_bind h
  rw [Work.after_bind_ok hc, Work.after_lift]
  cases h
  obtain ⟨done, targets, yields, folded⟩ := answer_plan hp
  rw [Work.answer_lift] at hc
  exact ⟨⟨done, targets, yields, folded⟩, hc⟩

/-- A plan that passes the checks can be carried out. -/
theorem Sound.commit_checked (ht : t.Sound) (hm : m.Made)
    (h : (t.checkedPlan m).answer a = .ok plan) : t.commit plan = (.ok (), t.carriedOut plan) := by
  obtain ⟨⟨done, targets, yields, rfl⟩, checked⟩ := answer_checkedPlan h
  have applied : applyUpdates (t.lifespans ++ (Plan.ofOutcomes t.lifespans.length done).started)
      (Plan.updatesOf done) = _ :=
    applyUpdates_eq_ok (fun u hu l hl => ?_) (ht.updates_eq hm targets yields)
  · unfold commit carriedOut
    rw [Plan.updates_ofOutcomes, applied]
  · obtain ⟨f, hf⟩ := Plan.mem_updatesOf.mp hu
    have inside := ht.lt_of_continues yields hf rfl
    rw [List.getElem?_append_left inside] at hl
    rw [Plan.updates_ofOutcomes] at checked
    exact checkUpdates_eq_ok checked u hu l hl

theorem run_add_error {e : Fault} (h : (t.checkedPlan m).answer a = .error e) :
    (t.add m).run a = ((.error e, t), (t.checkedPlan m).after a) := by
  have run : (t.checkedPlan m).run.run a = (.error e, (t.checkedPlan m).after a) := Prod.ext h rfl
  unfold add
  rw [StateT.run_bind, run]
  rfl

/-- What is told when a plan has been carried out. -/
def told (t : Tracker) (m : Matching) (plan : Plan) : Notice :=
  .tracked m.ordinal plan.started.length plan.updates.length (t.carriedOut plan).lifespans.length

/-- Taking in a matching whose plan passes the checks carries it out, and tells so. -/
theorem Sound.run_add (ht : t.Sound) (hm : m.Made) (h : (t.checkedPlan m).answer a = .ok plan) :
    (t.add m).run a = ((.ok (), t.carriedOut plan),
      (Work.note (t.told m plan)).after ((t.checkedPlan m).after a)) := by
  have run : (t.checkedPlan m).run.run a = (.ok plan, (t.checkedPlan m).after a) := Prod.ext h rfl
  unfold add
  rw [StateT.run_bind, run]
  simp only [bind, ht.commit_checked hm h]
  rfl

theorem Sound.run_add_ok (ht : t.Sound) (hm : m.Made)
    (h : (t.checkedPlan m).answer a = .ok plan) :
    ∃ n : Notice, (t.add m).run a =
      ((.ok (), t.carriedOut plan), (Work.note n).after ((t.checkedPlan m).after a)) :=
  ⟨t.told m plan, ht.run_add hm h⟩

theorem Sound.planned_of_add (ht : t.Sound) (hm : m.Made) {t' : Tracker} {b : Archive}
    (h : (t.add m).run a = ((.ok (), t'), b)) :
    ∃ plan, (t.checkedPlan m).answer a = .ok plan ∧ t' = t.carriedOut plan ∧
      b = (Work.note (t.told m plan)).after ((t.checkedPlan m).after a) := by
  cases hp : (t.checkedPlan m).answer a with
  | error e =>
    rw [run_add_error hp] at h
    cases h
  | ok plan =>
    rw [ht.run_add hm hp] at h
    cases h
    exact ⟨plan, rfl, rfl, rfl⟩

theorem modular_checkedPlan {P : ∀ α : Type, Work α → Prop} (hP : Work.Modular P) (t : Tracker)
    (m : Matching)
    (bytes : ∀ f p, some f ∈ m.targets → m.predecessor f = some p →
      ∀ r ∈ p.ranges ++ f.ranges, P _ r.file.bytes)
    (warning : ∀ f p, some f ∈ m.targets → m.predecessor f = some p → t.find p = none →
      P _ (Work.note (.untracked m.ordinal))) : P _ (t.checkedPlan m) := by
  apply hP.bind (t.modular_planTargets m hP _ bytes warning)
  intro plan
  exact hP.bind (hP.lift _) fun _ => hP.pure _

theorem reads_checkedPlan (t : Tracker) (m : Matching) : (t.checkedPlan m).Reads :=
  modular_checkedPlan Work.Reads.modular t m (fun _ _ _ _ r _ => r.file.reads_bytes)
    fun _ _ _ _ _ => .note _

theorem Sound.outcomes_of_add (ht : t.Sound) (hm : m.Made) {t' : Tracker} {b : Archive}
    (h : (t.add m).run a = ((.ok (), t'), b)) :
    a.Within b ∧ ∃ done : List (Fragment × Outcome), m.targets = done.map (some ·.1) ∧
      (∀ x ∈ done, t.Yields m b x.1 x.2) ∧
        t' = t.carriedOut (Plan.ofOutcomes t.lifespans.length done) := by
  obtain ⟨plan, hp, rfl, rfl⟩ := ht.planned_of_add hm h
  obtain ⟨⟨done, targets, yields, rfl⟩, -⟩ := answer_checkedPlan hp
  exact ⟨((reads_checkedPlan t m).keeps a).trans (.note _ _), done, targets,
    fun x hx => (yields x hx).mono (.note _ _), rfl⟩

end Step

/-! ### Runs -/

/-- The trackers that steps lead to, whether they succeed or fail, and whatever happens
to the archive in between. -/
inductive Reached : Tracker → Prop
  | empty : Reached empty
  | add {t : Tracker} (reached : Reached t) {m : Matching} (made : m.Made) (a : Archive) :
    Reached ((t.add m).run a).1.2

/-- Trackers are sound, however they came about. -/
theorem Reached.sound {t : Tracker} (h : t.Reached) : t.Sound := by
  induction h with
  | empty => exact sound_empty
  | @add t _ m made a sound =>
    cases hp : (t.checkedPlan m).answer a with
    | error e =>
      rw [run_add_error hp]
      exact sound
    | ok plan =>
      obtain ⟨n, run⟩ := sound.run_add_ok made hp
      rw [run]
      obtain ⟨⟨done, -, yields, rfl⟩, -⟩ := answer_checkedPlan hp
      exact sound_carriedOut sound made.wellFormed yields

/-- A step that fails leaves the tracker as it was. A step whose plan passes the checks
is carried out to its end: updates of one lifespan are all the same, and no lifespan gets
two of them if the targets are distinct, as those of a matching are that a step makes. -/
theorem add_all_or_nothing {t : Tracker} (ht : t.Reached) {m : Matching} (hm : m.Made)
    (a : Archive) :
    (∀ e t' b, (t.add m).run a = ((.error e, t'), b) → t' = t) ∧
      ∀ plan, (t.checkedPlan m).answer a = .ok plan →
        (∃ t', t.commit plan = (.ok (), t') ∧ ((t.add m).run a).1 = (.ok (), t')) ∧
        (∀ u ∈ plan.updates, ∀ v ∈ plan.updates, u.1 = v.1 → u = v) ∧
        ((m.targets.map fun f => f.map (·.handle)).Nodup → (plan.updates.map Prod.fst).Nodup) ∧
        (m.Mapped → (plan.updates.map Prod.fst).Nodup) := by
  have sound := ht.sound
  refine ⟨fun e t' b run => ?_, fun plan hp => ?_⟩
  · cases hp : (t.checkedPlan m).answer a with
    | error e =>
      rw [run_add_error hp] at run
      cases run
      rfl
    | ok plan =>
      obtain ⟨n, done⟩ := sound.run_add_ok hm hp
      rw [done] at run
      cases run
  · obtain ⟨n, run⟩ := sound.run_add_ok hm hp
    obtain ⟨⟨done, targets, yields, folded⟩, -⟩ := answer_checkedPlan hp
    rw [folded, Plan.updates_ofOutcomes, ← folded]
    refine ⟨⟨_, sound.commit_checked hm hp, by rw [run]⟩, sound.updates_eq hm targets yields,
      fun distinct => sound.nodup_updates hm.wellFormed yields ?_,
      fun mapped => sound.nodup_updates hm.wellFormed yields ?_⟩
    · rw [targets, List.map_map] at distinct
      exact List.Nodup.of_map some (by rwa [List.map_map])
    · obtain ⟨fs, same, nodup⟩ := mapped.targets
      exact (Plan.fragments_of_targets (same.symm.trans targets) nodup).2

/-- After a step of ordinal 2, one of ordinal 1 fails and one of ordinal 3 is carried out. -/
theorem add_all_or_nothing_ordinals :
    let f := Fragment.plain 0 [Range.ofFirst ⟨⟨"a", "r1"⟩, .memory ['x']⟩]
    let g := Fragment.plain 1 [Range.ofFirst ⟨⟨"a", "r2"⟩, .memory ['y']⟩]
    let next (ordinal : Int) : Matching := ⟨ordinal, [some f], [some g], [⟨0, 0, .position⟩]⟩
    let t := ((empty.add ⟨2, [], [some f], []⟩).run Archive.empty).1.2
    let failed := (t.add (next 1)).run Archive.empty
    failed.1.1 = .error (.inconsistent (.ordinalDecreases 1 2)) ∧ failed.1.2 = t ∧
      ∃ plan t', (t.checkedPlan (next 3)).answer Archive.empty = .ok plan ∧
        plan.updates.map Prod.fst = [0] ∧ t.commit plan = (.ok (), t') := by
  intro f g next t failed
  have apart : Fragment.ByHandle [some f, some g] := by
    intro f' g' hf hg e
    simp only [List.mem_cons, Option.some.injEq, List.not_mem_nil, or_false] at hf hg
    rcases hf with rfl | rfl <;> rcases hg with rfl | rfl
    · rfl
    · exact absurd e (by decide)
    · exact absurd e (by decide)
    · rfl
  have first : (⟨2, [], [some f], []⟩ : Matching).Made :=
    .new 2 fun f' g' hf hg _ => by simp_all
  have unlinked (ordinal : Int) : (⟨ordinal, [some f], [some g], []⟩ : Matching).Made :=
    .new ordinal apart
  have reached : t.Reached := .add .empty first Archive.empty
  have made (ordinal : Int) : (next ordinal).Made :=
    .link (unlinked ordinal) (some f) (some g) .position rfl
  have error : failed.1.1 = .error (.inconsistent (.ordinalDecreases 1 2)) := rfl
  obtain ⟨-, succeeds⟩ := add_all_or_nothing reached (made 3) Archive.empty
  obtain ⟨⟨t', committed, -⟩, -⟩ := succeeds _ rfl
  exact ⟨error, (add_all_or_nothing reached (made 1) Archive.empty).1 _ _ failed.2
    (Prod.ext (Prod.ext error rfl) rfl), _, t', rfl, rfl, committed⟩

end Tracker
end Lineage
