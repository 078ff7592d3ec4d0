/-
# What outcomes do

The outcomes of the targets of a step say all that the step does to a tracker. A lifespan
is continued by one target or by none, and it gets the snapshot of that target at its end;
as many lifespans begin as there are targets that continue none; and the tracker leads on
from the targets, each to its own lifespan.

Key definitions: `Plan.continuing`.
Key theorems: `Tracker.Sound.continuing_cases`, `Tracker.Sound.find_carriedOut`,
`Tracker.length_carriedOut`, `Plan.keys_ofOutcomes`.
-/
import Lineage.Proofs.Tracking.Commit

namespace Lineage

/-! ### One lifespan in one step -/

/-- The targets among outcomes that continue the lifespan at a place, with their snapshots. -/
def Plan.continuing (n : Nat) (done : List (Fragment × Tracker.Outcome)) :
    List (Fragment × Snapshot) :=
  done.filterMap fun x =>
    match x.2 with
    | .continues k s => if k = n then some (x.1, s) else none
    | .begins _ => none

theorem Plan.mem_continuing {n : Nat} {done : List (Fragment × Tracker.Outcome)} {f : Fragment}
    {s : Snapshot} : (f, s) ∈ continuing n done ↔ (f, .continues n s) ∈ done := by
  unfold continuing
  rw [List.mem_filterMap]
  constructor
  · rintro ⟨⟨g, o⟩, hx, e⟩
    cases o with
    | continues k s' =>
      dsimp only at e
      split at e
      · rename_i same
        cases e
        exact same ▸ hx
      · cases e
    | begins s' => cases e
  · intro h
    exact ⟨_, h, if_pos rfl⟩

theorem Plan.mem_beginning {done : List (Fragment × Tracker.Outcome)} {f : Fragment}
    {s : Snapshot} : (f, s) ∈ beginning done ↔ (f, .begins s) ∈ done := by
  unfold beginning
  rw [List.mem_filterMap]
  constructor
  · rintro ⟨⟨g, o⟩, hx, e⟩
    cases o with
    | continues k s' => cases e
    | begins s' =>
      cases e
      exact hx
  · intro h
    exact ⟨_, h, rfl⟩

theorem Plan.continuing_sublist (n : Nat) : ∀ done : List (Fragment × Tracker.Outcome),
    ((continuing n done).map Prod.fst).Sublist (done.map Prod.fst)
  | [] => .refl _
  | (f, o) :: rest => by
    have ih := continuing_sublist n rest
    unfold continuing at ih ⊢
    rw [List.filterMap_cons, List.map_cons]
    cases o with
    | continues k s =>
      by_cases e : k = n
      · simp only [if_pos e]
        exact ih.cons_cons f
      · simp only [if_neg e]
        exact ih.cons f
    | begins s => exact ih.cons f

theorem Plan.beginning_sublist : ∀ done : List (Fragment × Tracker.Outcome),
    ((beginning done).map Prod.fst).Sublist (done.map Prod.fst)
  | [] => .refl _
  | (f, o) :: rest => by
    have ih := beginning_sublist rest
    cases o with
    | continues k s => exact ih.cons f
    | begins s => exact ih.cons_cons f

namespace Tracker

theorem getElem?_foldl_push (n : Nat) : ∀ (done : List (Fragment × Outcome))
    (lifespans : List Lifespan),
    ((Plan.updatesOf done).foldl push lifespans)[n]? =
      lifespans[n]?.map fun l => ⟨l.first, l.later ++ (Plan.continuing n done).map Prod.snd⟩
  | [], lifespans => by
    show lifespans[n]? = lifespans[n]?.map fun l => ⟨l.first, l.later ++ []⟩
    simp only [List.append_nil]
    cases lifespans[n]? <;> rfl
  | (f, o) :: rest, lifespans => by
    have ih := getElem?_foldl_push n rest
    unfold Plan.updatesOf Plan.continuing at ih ⊢
    rw [List.filterMap_cons, List.filterMap_cons]
    cases o with
    | continues k s =>
      dsimp only
      rw [List.foldl_cons, ih, getElem?_push]
      by_cases e : k = n
      · simp only [if_pos e, Option.map_map]
        cases lifespans[n]? <;> simp [Lifespan.push]
      · simp only [if_neg e]
    | begins s => exact ih lifespans

section Step

variable {t : Tracker} {m : Matching} {a : Archive} {done : List (Fragment × Outcome)}

/-- A lifespan is continued by one target or by none. -/
theorem Sound.continuing_cases (ht : t.Sound) (hm : m.WellFormed)
    (yields : ∀ x ∈ done, t.Yields m a x.1 x.2) (nodup : (done.map (·.1.handle)).Nodup) (n : Nat) :
    (Plan.continuing n done = [] ∧ ∀ f s, (f, .continues n s) ∉ done) ∨
      ∃ f s, Plan.continuing n done = [(f, s)] ∧ (f, .continues n s) ∈ done := by
  have mem : ∀ x ∈ Plan.continuing n done, (x.1, .continues n x.2) ∈ done :=
    fun x hx => Plan.mem_continuing.mp hx
  have nodup : ((done.map Prod.fst).map fun f => f.handle).Nodup := by
    rw [List.map_map]
    exact nodup
  have once := nodup.sublist ((Plan.continuing_sublist n done).map fun f => f.handle)
  cases hc : Plan.continuing n done with
  | nil =>
    refine .inl ⟨rfl, fun f s hf => ?_⟩
    have none := Plan.mem_continuing.mpr hf
    rw [hc] at none
    cases none
  | cons x rest =>
    rw [hc] at mem once
    have hx := mem x List.mem_cons_self
    cases rest with
    | nil => exact .inr ⟨x.1, x.2, rfl, hx⟩
    | cons y rest =>
      -- two targets with one predecessor would share a handle
      have hy := mem y (List.mem_cons_of_mem _ List.mem_cons_self)
      have same := ht.handle_eq hm yields hx hy
      simp [same] at once

theorem lifespans_carriedOut (t : Tracker) (done : List (Fragment × Outcome)) :
    (t.carriedOut (Plan.ofOutcomes t.lifespans.length done)).lifespans =
      (Plan.updatesOf done).foldl push
        (t.lifespans ++ (Plan.beginning done).map fun x => .start x.2) := by
  unfold carriedOut
  rw [Plan.updates_ofOutcomes, Plan.started_ofOutcomes]

/-- As many lifespans begin as there are targets without a predecessor, if the tracker knows
all predecessors. -/
theorem length_beginning : ∀ {done : List (Fragment × Outcome)},
    (∀ x ∈ done, t.Yields m a x.1 x.2) →
    (∀ x ∈ done, ∀ p, m.predecessor x.1 = some p → (t.find p).isSome) →
      (Plan.beginning done).length +
        (done.map Prod.fst).countP (fun f => (m.predecessor f).isSome) = done.length
  | [], _, _ => rfl
  | (f, o) :: rest, yields, tracked => by
    have ih := length_beginning (fun x hx => yields x (List.mem_cons_of_mem _ hx))
      fun x hx => tracked x (List.mem_cons_of_mem _ hx)
    have here := yields (f, o) List.mem_cons_self
    rw [List.map_cons, List.countP_cons, List.length_cons, ← ih]
    unfold Plan.beginning
    rw [List.filterMap_cons]
    cases o with
    | continues k s =>
      obtain ⟨p, l, differ, pred, -⟩ := here
      simp only [pred, Option.isSome_some, ite_true]
      omega
    | begins s =>
      have none : m.predecessor f = none := by
        cases pred : m.predecessor f with
        | none => rfl
        | some p =>
          have found := tracked _ List.mem_cons_self p pred
          have lost := here.1
          rw [pred, Option.bind_some] at lost
          rw [lost] at found
          cases found
      simp only [none, Option.isSome_none, Bool.false_eq_true, ite_false, List.length_cons]
      omega

/-- A step adds a lifespan for every target without a predecessor, if the tracker knows
all predecessors. -/
theorem length_carriedOut (yields : ∀ x ∈ done, t.Yields m a x.1 x.2)
    (tracked : ∀ x ∈ done, ∀ p, m.predecessor x.1 = some p → (t.find p).isSome) :
    (t.carriedOut (Plan.ofOutcomes t.lifespans.length done)).lifespans.length +
        (done.map Prod.fst).countP (fun f => (m.predecessor f).isSome) =
      t.lifespans.length + done.length := by
  have begun := length_beginning yields tracked
  rw [lifespans_carriedOut, length_foldl_push, List.length_append, List.length_map]
  omega

end Step

end Tracker

/-! ### What a plan leads to -/

namespace Plan

variable {count : Nat} {done : List (Fragment × Tracker.Outcome)}

/-- A plan leads on from the targets, in their order. -/
theorem keys_ofOutcomes (nodup : (done.map (·.1.handle)).Nodup) :
    (ofOutcomes count done).tracked.map Prod.fst = done.map (·.1.handle) := by
  induction done using List.reverseRecOn with
  | nil => rfl
  | append_singleton done x ih =>
    rw [List.map_append] at nodup ⊢
    obtain ⟨before, -, apart⟩ := List.nodup_append.mp nodup
    have ih := ih before
    have new : x.1.handle ∉ (ofOutcomes count done).tracked.map Prod.fst := by
      rw [ih]
      exact fun hx => apart _ hx _ List.mem_cons_self rfl
    have last : ofOutcomes count (done ++ [x]) = (ofOutcomes count done).take count x := by
      unfold ofOutcomes
      rw [List.foldl_append, List.foldl_cons, List.foldl_nil]
    obtain ⟨f, o⟩ := x
    rw [last, List.map_singleton, ← ih]
    cases o with
    | continues k s => exact Tracker.keys_put k new
    | begins s => exact Tracker.keys_put _ new

/-- A plan leads from a target that continues a lifespan to this lifespan. -/
theorem lookup_continues (nodup : (done.map (·.1.handle)).Nodup) {f : Fragment} {k : Nat}
    {s : Snapshot} (hf : (f, .continues k s) ∈ done) :
    (ofOutcomes count done).tracked.lookup f.handle = some k := by
  have once : ∀ {g : Fragment} {o : Tracker.Outcome}, (g, o) ∈ done → g.handle = f.handle →
      o = .continues k s := by
    intro g o hg same
    have one := List.inj_on_of_nodup_map nodup hg hf same
    exact congrArg Prod.snd one
  obtain ⟨k', hk⟩ : ∃ k', (ofOutcomes count done).tracked.lookup f.handle = some k' :=
    exists_lookup hf
  rcases led_of_lookup hk with ⟨g, s', hg, same⟩ | ⟨-, g, s', hg, same⟩
  · cases once hg same
    exact hk
  · have begins := mem_beginning.mp (List.mem_of_getElem? hg)
    cases once begins same

end Plan

namespace Tracker

/-- A target that continues a lifespan is found at its end after the step. -/
theorem Sound.find_carriedOut {t : Tracker} {m : Matching} {a : Archive}
    {done : List (Fragment × Outcome)} (ht : t.Sound) (hm : m.WellFormed)
    (yields : ∀ x ∈ done, t.Yields m a x.1 x.2) (nodup : (done.map (·.1.handle)).Nodup)
    {f : Fragment} {k : Nat} {s : Snapshot} (hf : (f, .continues k s) ∈ done) {l : Lifespan}
    (hl : t.lifespans[k]? = some l) :
    (t.carriedOut (Plan.ofOutcomes t.lifespans.length done)).find f = some (k, l.push s) := by
  refine find_eq_some.mpr ⟨Plan.lookup_continues nodup hf, ?_⟩
  have inside := (List.getElem?_eq_some_iff.mp hl).1
  rw [lifespans_carriedOut, getElem?_foldl_push, List.getElem?_append_left inside, hl,
    Option.map_some]
  rcases ht.continuing_cases hm yields nodup k with ⟨-, none⟩ | ⟨g, s', one, -⟩
  · exact absurd hf (none f s)
  · have mem := Plan.mem_continuing.mpr hf
    rw [one, List.mem_singleton] at mem
    cases mem
    rw [one]
    rfl

end Tracker
end Lineage
