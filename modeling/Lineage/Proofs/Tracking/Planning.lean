/-
# What a step does

For every target a step either continues a lifespan or begins one, and with which
snapshot is settled by the tracker, the matching and what is kept in the archive
(`Tracker.Yields`). A plan does nothing but collect these outcomes, target by target
(`Tracker.answer_plan`).

Comparing contents is reading, so what was answered while planning is still true
when the plan is carried out.

Key definitions: `Tracker.Outcome`, `Tracker.Yields`, `Plan.take`.
Key theorems: `Tracker.Yields.unique`, `Tracker.answer_plan`.
-/
import Lineage.Proofs.Archive.Reading
import Lineage.Tracker

namespace Lineage

/-! ### Comparing contents -/

section Modular

variable {P : ∀ α : Type, Work α → Prop} (hP : Work.Modular P)
include hP

theorem modular_contentsOf : ∀ {rs : List Range}, (∀ r ∈ rs, P _ r.file.bytes) →
    P _ (contentsOf rs)
  | [], _ => hP.pure _
  | r :: rs, bytes => by
    have rest := modular_contentsOf fun s hs => bytes s (List.mem_cons_of_mem r hs)
    unfold contentsOf
    exact hP.bind (r.modular_content hP (bytes r List.mem_cons_self)) fun _ =>
      hP.bind rest fun _ => hP.pure _

theorem modular_differFrom : ∀ {rs : List Range}, (∀ r ∈ rs, P _ r.file.bytes) →
    ∀ remaining : List (List Char), P _ (differFrom rs remaining)
  | [], _, remaining => by
    unfold differFrom
    split
    · exact hP.pure _
    · exact hP.throw _
  | r :: rs, bytes, remaining => by
    have rest := modular_differFrom fun s hs => bytes s (List.mem_cons_of_mem r hs)
    unfold differFrom
    apply hP.bind (r.modular_content hP (bytes r List.mem_cons_self))
    intro content
    split
    · exact rest _
    · exact hP.pure _

theorem modular_contentsDiffer {f g : Fragment} (bytes : ∀ r ∈ f.ranges, P _ r.file.bytes)
    (bytes' : ∀ r ∈ g.ranges, P _ r.file.bytes) : P _ (contentsDiffer f g) := by
  unfold contentsDiffer
  split
  · exact hP.pure _
  · exact hP.bind (modular_contentsOf hP bytes') fun _ => modular_differFrom hP bytes _

end Modular

theorem reads_contentsDiffer (f g : Fragment) : (contentsDiffer f g).Reads :=
  modular_contentsDiffer Work.Reads.modular (fun r _ => r.file.reads_bytes)
    fun r _ => r.file.reads_bytes

/-! ### Places of lifespans -/

theorem lookup_put (handle place : Nat) (h : Nat) : ∀ tracked : List (Nat × Nat),
    (Tracker.put handle place tracked).lookup h =
      if h = handle then some place else tracked.lookup h
  | [] => by
    unfold Tracker.put
    rw [List.lookup_cons]
    by_cases e : h = handle
    · simp [e]
    · simp [e, beq_false_of_ne e]
  | (h', p) :: rest => by
    unfold Tracker.put
    by_cases e' : h' = handle
    · rw [if_pos e', List.lookup_cons, List.lookup_cons]
      subst e'
      by_cases e : h = h'
      · simp [e]
      · simp [e, beq_false_of_ne e]
    · rw [if_neg e', List.lookup_cons, List.lookup_cons, lookup_put handle place h rest]
      by_cases e : h = h'
      · subst e
        simp [e']
      · simp [beq_false_of_ne e]

theorem Tracker.keys_put {handle : Nat} (place : Nat) : ∀ {tracked : List (Nat × Nat)},
    handle ∉ tracked.map Prod.fst →
      (put handle place tracked).map Prod.fst = tracked.map Prod.fst ++ [handle]
  | [], _ => rfl
  | (h, p) :: rest, new => by
    obtain ⟨other, new⟩ := List.ne_and_not_mem_of_not_mem_cons new
    unfold put
    rw [if_neg (Ne.symm other), List.map_cons, keys_put place new]
    rfl

theorem Tracker.find_eq_some {t : Tracker} {f : Fragment} {k : Nat} {l : Lifespan} :
    t.find f = some (k, l) ↔ t.placeOf f = some k ∧ t.lifespans[k]? = some l := by
  unfold Tracker.find
  constructor
  · intro h
    obtain ⟨k', hk, h⟩ := Option.bind_eq_some_iff.mp h
    obtain ⟨l', hl, h⟩ := Option.bind_eq_some_iff.mp h
    cases h
    exact ⟨hk, hl⟩
  · rintro ⟨hk, hl⟩
    rw [hk]
    show (t.lifespans[k]? >>= fun l => pure (k, l)) = some (k, l)
    rw [hl]
    rfl

/-! ### Outcomes -/

/-- What a step does with a target. -/
inductive Tracker.Outcome where
  | continues (place : Nat) (s : Snapshot)
  | begins (s : Snapshot)

/-- One more target in a plan, for a tracker with `count` lifespans. -/
def Plan.take (count : Nat) (plan : Plan) (target : Fragment × Tracker.Outcome) : Plan :=
  match target.2 with
  | .continues k s =>
    { plan with
      updates := plan.updates ++ [(k, s)]
      tracked := Tracker.put target.1.handle k plan.tracked }
  | .begins s =>
    { plan with
      started := plan.started ++ [.start s]
      tracked := Tracker.put target.1.handle (count + plan.started.length) plan.tracked }

namespace Tracker

/-- The outcome of a target: it continues the lifespan of its predecessor, with one more
change if their contents differ, or begins one if there is no such lifespan. -/
def Yields (t : Tracker) (m : Matching) (a : Archive) (f : Fragment) : Outcome → Prop
  | .continues k s => ∃ p l differ, m.predecessor f = some p ∧ t.find p = some (k, l) ∧
      (contentsDiffer p f).Settled a differ ∧
        Snapshot.ofFragment f m.ordinal (if differ then l.changes + 1 else l.changes) = .ok s
  | .begins s => (m.predecessor f).bind t.find = none ∧ Snapshot.ofFragment f m.ordinal 0 = .ok s

/-- A target has one outcome. -/
theorem Yields.unique {t : Tracker} {m : Matching} {a : Archive} {f : Fragment} {o o' : Outcome}
    (h : t.Yields m a f o) (h' : t.Yields m a f o') : o = o' := by
  cases o with
  | continues k s =>
    obtain ⟨p, l, differ, hp, hf, hd, hs⟩ := h
    cases o' with
    | continues k' s' =>
      obtain ⟨p', l', differ', hp', hf', hd', hs'⟩ := h'
      cases hp.symm.trans hp'
      cases hf.symm.trans hf'
      cases hd.answer.symm.trans hd'.answer
      cases hs.symm.trans hs'
      rfl
    | begins s' =>
      have none := h'.1
      rw [hp, Option.bind_some, hf] at none
      cases none
  | begins s =>
    cases o' with
    | continues k' s' =>
      obtain ⟨p', l', differ', hp', hf', -⟩ := h'
      have none := h.1
      rw [hp', Option.bind_some, hf'] at none
      cases none
    | begins s' =>
      cases h.2.symm.trans h'.2
      rfl

theorem Yields.mono {t : Tracker} {m : Matching} {a b : Archive} {f : Fragment} {o : Outcome}
    (h : t.Yields m a f o) (hb : a.Within b) : t.Yields m b f o := by
  cases o with
  | continues k s =>
    obtain ⟨p, l, differ, hp, hf, hd, hs⟩ := h
    exact ⟨p, l, differ, hp, hf, hd.mono hb, hs⟩
  | begins s => exact h

section Plans

variable (t : Tracker) (m : Matching)

section Modular

variable {P : ∀ α : Type, Work α → Prop} (hP : Work.Modular P)
include hP

/-- To plan for a target is to compare it with its predecessor, if that is tracked, and to
warn if it is not. -/
theorem modular_planFragment (plan : Plan) {f : Fragment}
    (bytes : ∀ p, m.predecessor f = some p →
      ∀ r ∈ p.ranges ++ f.ranges, P _ r.file.bytes)
    (warning : ∀ p, m.predecessor f = some p → t.find p = none →
      P _ (Work.note (.untracked m.ordinal))) :
    P _ (t.planFragment m plan f) := by
  unfold planFragment
  dsimp only
  split
  next p k l found =>
    obtain ⟨p', hp, hfind⟩ := Option.bind_eq_some_iff.mp found
    obtain ⟨_, -, e⟩ := Option.map_eq_some_iff.mp hfind
    cases e
    have compared := modular_contentsDiffer hP
      (fun r hr => bytes p hp r (List.mem_append_left _ hr))
      fun r hr => bytes p hp r (List.mem_append_right _ hr)
    exact hP.bind compared fun _ => hP.bind (hP.lift _) fun _ => hP.pure _
  next none =>
    split
    next some =>
      obtain ⟨p, hp⟩ := Option.isSome_iff_exists.mp some
      rw [hp, Option.bind_some] at none
      have told := warning p hp (Option.map_eq_none_iff.mp none)
      exact hP.bind told fun _ => hP.bind (hP.lift _) fun _ => hP.pure _
    · exact hP.bind (hP.lift _) fun _ => hP.pure _

theorem modular_planTargets : ∀ {targets : List (Option Fragment)} (plan : Plan),
    (∀ f p, some f ∈ targets → m.predecessor f = some p →
      ∀ r ∈ p.ranges ++ f.ranges, P _ r.file.bytes) →
    (∀ f p, some f ∈ targets → m.predecessor f = some p → t.find p = none →
      P _ (Work.note (.untracked m.ordinal))) →
      P _ (t.planTargets m plan targets)
  | [], plan, _, _ => hP.pure plan
  | target :: rest, plan, bytes, warning => by
    have here : P _ (t.planTarget m plan target) := by
      cases target with
      | none => exact hP.throw _
      | some f =>
        exact t.modular_planFragment m hP plan (fun p => bytes f p List.mem_cons_self)
          fun p => warning f p List.mem_cons_self
    unfold planTargets
    exact hP.bind here fun plan =>
      modular_planTargets plan (fun f p hf => bytes f p (List.mem_cons_of_mem _ hf))
        fun f p hf => warning f p (List.mem_cons_of_mem _ hf)

end Modular

theorem reads_planTargets (targets : List (Option Fragment)) (plan : Plan) :
    (t.planTargets m plan targets).Reads :=
  t.modular_planTargets m Work.Reads.modular plan (fun _ _ _ _ r _ => r.file.reads_bytes)
    fun _ _ _ _ _ => .note _

variable {t m}

theorem answer_planFragment {plan plan' : Plan} {f : Fragment} {a : Archive}
    (h : (t.planFragment m plan f).answer a = .ok plan') :
    ∃ o, t.Yields m ((t.planFragment m plan f).after a) f o ∧
      plan' = plan.take t.lifespans.length (f, o) := by
  unfold planFragment at h ⊢
  dsimp only at h ⊢
  cases hp : (m.predecessor f).bind fun p => (t.find p).map (p, ·) with
  | some found =>
    obtain ⟨p, k, l⟩ := found
    rw [hp] at h
    dsimp only at h ⊢
    obtain ⟨p', hpre, hfind⟩ := Option.bind_eq_some_iff.mp hp
    obtain ⟨⟨k', l'⟩, hfind, e⟩ := Option.map_eq_some_iff.mp hfind
    cases e
    obtain ⟨differ, hd, h⟩ := Work.exists_of_answer_bind h
    obtain ⟨s, hs, h⟩ := Work.exists_of_answer_bind h
    rw [Work.after_bind_ok hd, Work.after_bind_ok hs, Work.after_lift]
    rw [Work.answer_lift] at hs
    cases h
    exact ⟨.continues k s,
      ⟨p, l, differ, hpre, hfind, (reads_contentsDiffer p f).settled hd, hs⟩, rfl⟩
  | none =>
    rw [hp] at h
    dsimp only at h
    have begun : ∃ s, Snapshot.ofFragment f m.ordinal 0 = .ok s ∧
        plan' = plan.take t.lifespans.length (f, .begins s) := by
      split at h
      · obtain ⟨_, -, h⟩ := Work.exists_of_answer_bind h
        obtain ⟨s, hs, h⟩ := Work.exists_of_answer_bind h
        rw [Work.answer_lift] at hs
        exact ⟨s, hs, (Except.ok.inj h).symm⟩
      · obtain ⟨s, hs, h⟩ := Work.exists_of_answer_bind h
        rw [Work.answer_lift] at hs
        exact ⟨s, hs, (Except.ok.inj h).symm⟩
    obtain ⟨s, hs, rfl⟩ := begun
    refine ⟨.begins s, ⟨?_, hs⟩, rfl⟩
    cases hpre : m.predecessor f with
    | none => rfl
    | some p =>
      rw [hpre, Option.bind_some] at hp
      exact Option.map_eq_none_iff.mp hp

theorem answer_planTargets : ∀ {targets : List (Option Fragment)} {plan plan' : Plan}
    {a : Archive}, (t.planTargets m plan targets).answer a = .ok plan' →
      ∃ done : List (Fragment × Outcome), targets = done.map (some ·.1) ∧
        (∀ x ∈ done, t.Yields m ((t.planTargets m plan targets).after a) x.1 x.2) ∧
        plan' = done.foldl (Plan.take t.lifespans.length) plan
  | [], plan, plan', a, h => by
    cases h
    exact ⟨[], rfl, by simp, rfl⟩
  | target :: rest, plan, plan', a, h => by
    unfold planTargets planTarget at h ⊢
    obtain ⟨next, hn, h⟩ := Work.exists_of_answer_bind h
    rw [Work.after_bind_ok hn]
    obtain ⟨f, hf, hn⟩ := Work.exists_of_answer_bind hn
    rw [Work.after_bind_ok hf]
    cases target with
    | none => cases hf
    | some f' =>
      cases hf
      obtain ⟨o, yields, rfl⟩ := answer_planFragment hn
      obtain ⟨done, rfl, others, rfl⟩ := answer_planTargets h
      refine ⟨(f, o) :: done, rfl, fun x hx => ?_, rfl⟩
      rcases List.mem_cons.mp hx with rfl | hx
      · exact yields.mono ((t.reads_planTargets m _ _).keeps _)
      · exact others x hx

/-- A plan collects the outcomes of the targets. -/
theorem answer_plan {plan : Plan} {a : Archive} (h : (t.plan m).answer a = .ok plan) :
    ∃ done : List (Fragment × Outcome), m.targets = done.map (some ·.1) ∧
      (∀ x ∈ done, t.Yields m ((t.plan m).after a) x.1 x.2) ∧
        plan = done.foldl (Plan.take t.lifespans.length) ⟨[], [], []⟩ :=
  answer_planTargets h

end Plans

end Tracker
end Lineage
