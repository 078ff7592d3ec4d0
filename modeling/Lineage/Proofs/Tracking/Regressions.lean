/-
# Lifespans in order, and steps that go back

In a lifespan ordinals never decrease, and the number of changes starts at zero and goes
up by one or stays (`Lifespan.Ordered`). A tracker remembers no ordinal, but every
lifespan that it leads to ends with that of the last step that succeeded, since such a
step adds a snapshot to everything that it leads on to (`Tracker.InOrder`). So whether a
step can be taken in does not depend on which lifespans it continues: it cannot if its
ordinal is lower than that one and it continues any, and nothing else stops it, as long as
the contents can be read (`Tracker.Stepped.add_rejects`). Steps that continue nothing may
go back, and those after them count from there.

Key definitions: `Lifespan.Ordered`, `Tracker.InOrder`, `Tracker.Stepped`,
`Tracker.Regresses`.
Key theorems: `Tracker.InOrder.carriedOut`, `Tracker.Stepped.inOrder`,
`Tracker.Stepped.add_rejects`.
-/
import Lineage.Proofs.Tracking.Histories
import Lineage.Proofs.Tracking.Planned
import Mathlib.Data.List.Chain

namespace Lineage

/-! ### Lifespans in order -/

/-- One snapshot can come right after another one: its ordinal is no lower, and it has the
same number of changes or one more. -/
def Snapshot.Succeeds (s s' : Snapshot) : Prop :=
  s.ordinal ≤ s'.ordinal ∧ (s'.changes = s.changes ∨ s'.changes = s.changes + 1)

/-- A lifespan begins without changes, and each snapshot can come after the one before. -/
structure Lifespan.Ordered (l : Lifespan) : Prop where
  first : l.first.changes = 0
  chain : l.snapshots.IsChain Snapshot.Succeeds

theorem Lifespan.ordered_start {s : Snapshot} (h : s.changes = 0) : (start s).Ordered :=
  ⟨h, List.isChain_singleton s⟩

theorem Lifespan.Ordered.push {l : Lifespan} (h : l.Ordered) {s : Snapshot}
    (next : l.last.Succeeds s) : (l.push s).Ordered := by
  refine ⟨h.first, ?_⟩
  rw [snapshots_push, List.isChain_append]
  refine ⟨h.chain, List.isChain_singleton s, fun x hx y hy => ?_⟩
  have last : l.snapshots.getLast? = some l.last := List.getLast?_cons
  cases last.symm.trans hx
  cases hy
  exact next

namespace Tracker

/-! ### What one step does to the order -/

/-- Every lifespan is in order, and those that the tracker leads to end with the ordinal
of the last step. -/
structure InOrder (t : Tracker) (last : Option Int) : Prop where
  sound : t.Sound
  ordered : ∀ l ∈ t.lifespans, l.Ordered
  current : ∀ h k, t.tracked.lookup h = some k →
    ∃ l, t.lifespans[k]? = some l ∧ last = some l.last.ordinal

theorem inOrder_empty : empty.InOrder none :=
  ⟨sound_empty, fun _ hl => (by cases hl), fun _ _ hk => (by cases hk)⟩

section Step

variable {t : Tracker} {m : Matching} {a : Archive} {done : List (Fragment × Outcome)}

theorem Yields.continued {f : Fragment} {k : Nat} {s : Snapshot}
    (h : t.Yields m a f (.continues k s)) :
    ∃ l, t.lifespans[k]? = some l ∧ s.ordinal = m.ordinal ∧
      (s.changes = l.last.changes ∨ s.changes = l.last.changes + 1) := by
  obtain ⟨p, l, differ, -, found, -, taken⟩ := h
  have shows := Snapshot.shows_ofFragment taken
  refine ⟨l, (find_eq_some.mp found).2, shows.ordinal, ?_⟩
  cases differ
  · exact .inl shows.changes
  · exact .inr shows.changes

theorem Yields.begun {f : Fragment} {s : Snapshot} (h : t.Yields m a f (.begins s)) :
    s.ordinal = m.ordinal ∧ s.changes = 0 :=
  have shows := Snapshot.shows_ofFragment h.2
  ⟨shows.ordinal, shows.changes⟩

theorem Sound.lifespan_begun (ht : t.Sound) (yields : ∀ x ∈ done, t.Yields m a x.1 x.2) {k : Nat}
    {f : Fragment} {s : Snapshot} (le : t.lifespans.length ≤ k)
    (hb : (Plan.beginning done)[k - t.lifespans.length]? = some (f, s)) :
    (t.carriedOut (Plan.ofOutcomes t.lifespans.length done)).lifespans[k]? = some (.start s) := by
  have none : Plan.continuing k done = [] := by
    refine List.eq_nil_iff_forall_not_mem.mpr fun ⟨g, s'⟩ hg => ?_
    have inside := ht.lt_of_continues yields (Plan.mem_continuing.mp hg) rfl
    omega
  rw [lifespans_carriedOut, getElem?_foldl_push, List.getElem?_append_right le, List.getElem?_map,
    hb, none]
  rfl

/-- A lifespan after the step is an old one as it was, an old one with the snapshot of a
target that continues it, or one that a target begins. -/
theorem Sound.lifespan_cases (ht : t.Sound) (hm : m.WellFormed)
    (yields : ∀ x ∈ done, t.Yields m a x.1 x.2) (nodup : (done.map (·.1.handle)).Nodup)
    {l : Lifespan}
    (h : l ∈ (t.carriedOut (Plan.ofOutcomes t.lifespans.length done)).lifespans) :
    l ∈ t.lifespans ∨
      (∃ f k s l', (f, .continues k s) ∈ done ∧ t.lifespans[k]? = some l' ∧ l = l'.push s) ∨
        ∃ f s, (f, .begins s) ∈ done ∧ l = .start s := by
  obtain ⟨n, hn⟩ := List.getElem?_of_mem h
  by_cases lt : n < t.lifespans.length
  · rw [lifespans_carriedOut, getElem?_foldl_push, List.getElem?_append_left lt] at hn
    obtain ⟨l', hl, rfl⟩ := Option.map_eq_some_iff.mp hn
    rcases ht.continuing_cases hm yields nodup n with ⟨none, -⟩ | ⟨f, s, one, hf⟩
    · rw [none, List.map_nil, List.append_nil]
      exact .inl (List.mem_of_getElem? hl)
    · rw [one]
      exact .inr (.inl ⟨f, n, s, l', hf, hl, rfl⟩)
  · have le : t.lifespans.length ≤ n := Nat.le_of_not_lt lt
    have length := (List.getElem?_eq_some_iff.mp hn).1
    rw [lifespans_carriedOut, length_foldl_push, List.length_append, List.length_map] at length
    have hb := List.getElem?_eq_getElem (l := Plan.beginning done) (i := n - t.lifespans.length)
      (by omega)
    rw [ht.lifespan_begun yields le hb] at hn
    cases hn
    exact .inr (.inr ⟨_, _, Plan.mem_beginning.mp (List.mem_of_getElem? hb), rfl⟩)

/-- A step that is carried out keeps the order, and moves it on to its own ordinal. -/
theorem InOrder.carriedOut {last : Option Int} (h : t.InOrder last) (hm : m.WellFormed)
    (yields : ∀ x ∈ done, t.Yields m a x.1 x.2) (nodup : (done.map (·.1.handle)).Nodup)
    (checked : checkUpdates t.lifespans (Plan.updatesOf done) = .ok ()) :
    (t.carriedOut (Plan.ofOutcomes t.lifespans.length done)).InOrder (some m.ordinal) := by
  refine ⟨sound_carriedOut h.sound hm yields, fun l hl => ?_, fun handle k hk => ?_⟩
  · rcases h.sound.lifespan_cases hm yields nodup hl with
      old | ⟨f, k, s, l', hf, hl', rfl⟩ | ⟨f, s, hf, rfl⟩
    · exact h.ordered l old
    · have fits := checkUpdates_eq_ok checked (k, s) (Plan.mem_updatesOf.mpr ⟨f, hf⟩) l' hl'
      obtain ⟨l'', found, -, changes⟩ := (yields _ hf).continued
      cases hl'.symm.trans found
      exact (h.ordered l' (List.mem_of_getElem? hl')).push
        ⟨(Lifespan.requireNext_eq_ok.mp fits).1, changes⟩
    · exact Lifespan.ordered_start (yields _ hf).begun.2
  · rcases Plan.led_of_lookup hk with ⟨f, s, hf, -⟩ | ⟨le, f, s, hb, -⟩
    · obtain ⟨l, hl, ordinal, -⟩ := (yields _ hf).continued
      have found := h.sound.find_carriedOut hm yields nodup hf hl
      exact ⟨l.push s, (find_eq_some.mp found).2, by rw [Lifespan.last_push, ordinal]⟩
    · have begun := (yields _ (Plan.mem_beginning.mp (List.mem_of_getElem? hb))).begun
      exact ⟨.start s, h.sound.lifespan_begun yields le hb, congrArg some begun.1.symm⟩

end Step

/-! ### Which steps are taken in -/

/-- A step goes back: its ordinal is lower than that of the last step, and one of its
targets has a predecessor that the tracker leads to. -/
def Regresses (t : Tracker) (last : Option Int) (m : Matching) : Prop :=
  (∃ ordinal, last = some ordinal ∧ m.ordinal < ordinal) ∧
    ∃ f p, some f ∈ m.targets ∧ m.predecessor f = some p ∧ (t.find p).isSome

theorem checkUpdates_of_all {lifespans : List Lifespan} : ∀ {updates : List (Nat × Snapshot)},
    (∀ u ∈ updates, ∀ l, lifespans[u.1]? = some l → l.requireNext u.2 = .ok ()) →
      checkUpdates lifespans updates = .ok ()
  | [], _ => rfl
  | (k, s) :: rest, h => by
    have others := checkUpdates_of_all fun u hu => h u (List.mem_cons_of_mem _ hu)
    unfold checkUpdates
    rw [others]
    cases hk : lifespans[k]? with
    | none => rfl
    | some l =>
      dsimp only
      rw [h (k, s) List.mem_cons_self l hk]
      rfl

section Step

variable {t : Tracker} {m : Matching} {a : Archive} {done : List (Fragment × Outcome)}
  {last : Option Int}

/-- What an update goes to is a lifespan that ends with the ordinal of the last step, and
it comes from a target whose predecessor the tracker leads on. -/
theorem InOrder.update (h : t.InOrder last) (targets : m.targets = done.map (some ·.1))
    (yields : ∀ x ∈ done, t.Yields m a x.1 x.2) {u : Nat × Snapshot}
    (hu : u ∈ Plan.updatesOf done) :
    (∃ l, t.lifespans[u.1]? = some l ∧ last = some l.last.ordinal ∧ u.2.ordinal = m.ordinal ∧
      l.last.changes ≤ u.2.changes) ∧
      ∃ f p, some f ∈ m.targets ∧ m.predecessor f = some p ∧ (t.find p).isSome := by
  obtain ⟨f, hf⟩ := Plan.mem_updatesOf.mp hu
  have target : some f ∈ m.targets := by
    rw [targets]
    exact List.mem_map_of_mem hf
  obtain ⟨l, hl, ordinal, changes⟩ := (yields _ hf).continued
  obtain ⟨p, l', -, hp, found, -⟩ := yields _ hf
  obtain ⟨place, hl'⟩ := find_eq_some.mp found
  cases hl.symm.trans hl'
  obtain ⟨l'', hl'', current⟩ := h.current _ _ place
  cases hl.symm.trans hl''
  exact ⟨⟨l, hl, current, ordinal, by omega⟩, f, p, target, hp, by rw [found]; rfl⟩

/-- The checks let all steps pass but those that go back. -/
theorem InOrder.checkUpdates_eq_ok (h : t.InOrder last)
    (targets : m.targets = done.map (some ·.1)) (yields : ∀ x ∈ done, t.Yields m a x.1 x.2)
    (onward : ¬ t.Regresses last m) :
    checkUpdates t.lifespans (Plan.updatesOf done) = .ok () := by
  refine checkUpdates_of_all fun u hu l hl => ?_
  obtain ⟨⟨l', hl', current, ordinal, changes⟩, continued⟩ := h.update targets yields hu
  cases hl.symm.trans hl'
  refine Lifespan.requireNext_eq_ok.mpr ⟨?_, changes⟩
  rw [ordinal]
  exact Int.not_lt.mp fun lower => onward ⟨⟨_, current, lower⟩, continued⟩

/-- The checks stop a step that goes back at the first lifespan that it continues. -/
theorem InOrder.checkUpdates_eq_error (h : t.InOrder last)
    (targets : m.targets = done.map (some ·.1)) (yields : ∀ x ∈ done, t.Yields m a x.1 x.2)
    {ordinal : Int} (hlast : last = some ordinal) (lower : m.ordinal < ordinal) {f p : Fragment}
    (hf : some f ∈ m.targets) (hp : m.predecessor f = some p) (found : (t.find p).isSome) :
    checkUpdates t.lifespans (Plan.updatesOf done) =
      .error (.inconsistent (.ordinalDecreases m.ordinal ordinal)) := by
  have continued : Plan.updatesOf done ≠ [] := by
    rw [targets, List.mem_map] at hf
    obtain ⟨⟨f', o⟩, hx, ⟨⟩⟩ := hf
    cases o with
    | continues k s =>
      have update : (k, s) ∈ Plan.updatesOf done := Plan.mem_updatesOf.mpr ⟨_, hx⟩
      exact List.ne_nil_of_mem update
    | begins s =>
      have lost := (yields _ hx).1
      rw [hp, Option.bind_some] at lost
      rw [lost] at found
      cases found
  obtain ⟨u, rest, hu⟩ := List.exists_cons_of_ne_nil continued
  obtain ⟨⟨l, hl, current, same, -⟩, -⟩ :=
    h.update targets yields (u := u) (by rw [hu]; exact List.mem_cons_self)
  have end_eq : l.last.ordinal = ordinal := Option.some.inj (current.symm.trans hlast)
  have stopped : l.requireNext u.2 =
      .error (.inconsistent (.ordinalDecreases m.ordinal ordinal)) := by
    unfold Lifespan.requireNext
    rw [same, end_eq, if_pos lower]
  rw [hu]
  unfold checkUpdates
  simp only [hl, stopped]
  rfl

/-- A step whose contents can be read is taken in unless it goes back. -/
theorem InOrder.answer_checkedPlan_iff (h : t.InOrder last) (followed : m.Followed)
    {scope : File → Prop} (apart : ∀ f g, scope f → scope g → f.OneHandle g)
    (known : ∀ f p, some f ∈ m.targets → m.predecessor f = some p →
      ∀ r ∈ p.ranges ++ f.ranges, scope r.file) (readable : a.Readable scope) :
    (t.Regresses last m → ∃ cause, (t.checkedPlan m).answer a = .error (.inconsistent cause)) ∧
      (¬ t.Regresses last m → ∃ plan, (t.checkedPlan m).answer a = .ok plan) := by
  obtain ⟨plan, hp, -, -⟩ :=
    t.ensures_plan apart followed.one_le_ordinal followed.filled known a readable
  obtain ⟨done, targets, yields, folded⟩ := answer_plan hp
  have updates : plan.updates = Plan.updatesOf done := by
    rw [folded]
    exact Plan.updates_ofOutcomes _ _
  have checks : (t.checkedPlan m).answer a =
      (checkUpdates t.lifespans (Plan.updatesOf done)).map fun _ => plan := by
    unfold checkedPlan
    rw [Work.answer_bind_ok hp, updates]
    cases checkUpdates t.lifespans (Plan.updatesOf done) <;> rfl
  refine ⟨?_, fun onward => ?_⟩
  · rintro ⟨⟨ordinal, hlast, lower⟩, f, p, hf, pred, found⟩
    rw [checks, h.checkUpdates_eq_error targets yields hlast lower hf pred found]
    exact ⟨_, rfl⟩
  · rw [checks, h.checkUpdates_eq_ok targets yields onward]
    exact ⟨plan, rfl⟩

end Step

/-! ### Runs -/

/-- The trackers that runs of steps lead to, each with the ordinal of the last step that
succeeded. What happens to the archive between steps may be anything. -/
inductive Stepped : Tracker → Option Int → Prop
  | empty : Stepped empty none
  | added {t t' : Tracker} {last : Option Int} (before : Stepped t last) {m : Matching}
    (followed : m.Followed) {a b : Archive} (run : (t.add m).run a = ((.ok (), t'), b)) :
    Stepped t' (some m.ordinal)
  | failed {t t' : Tracker} {last : Option Int} (before : Stepped t last) {m : Matching}
    (followed : m.Followed) {a b : Archive} {e : Fault}
    (run : (t.add m).run a = ((.error e, t'), b)) : Stepped t' last

theorem Stepped.inOrder {t : Tracker} {last : Option Int} (h : t.Stepped last) :
    t.InOrder last := by
  induction h with
  | empty => exact inOrder_empty
  | @added t t' last _ m followed a b run ih =>
    have made := followed.mapped.made
    obtain ⟨plan, hp, rfl, rfl⟩ := ih.sound.planned_of_add made run
    obtain ⟨⟨done, targets, yields, rfl⟩, checked⟩ := answer_checkedPlan hp
    obtain ⟨fs, all, nodup⟩ := followed.mapped.targets
    rw [Plan.updates_ofOutcomes] at checked
    exact ih.carriedOut made.wellFormed yields
      (Plan.fragments_of_targets (all.symm.trans targets) nodup).2 checked
  | @failed t t' last _ m followed a b e run ih =>
    cases hp : (t.checkedPlan m).answer a with
    | error e' =>
      rw [run_add_error hp] at run
      cases run
      exact ih
    | ok plan =>
      rw [ih.sound.run_add followed.mapped.made hp] at run
      cases run

/-- In every run lifespans stay in order and those that the tracker leads to end with the
ordinal of the last step that succeeded. A step whose contents can be read is refused as an
inconsistency if and only if it goes back, and is taken in otherwise. -/
theorem Stepped.add_rejects {t : Tracker} {last : Option Int} (h : t.Stepped last) :
    (∀ l ∈ t.lifespans, l.Ordered) ∧
    (∀ h k, t.tracked.lookup h = some k →
      ∃ l, t.lifespans[k]? = some l ∧ last = some l.last.ordinal) ∧
    ∀ m : Matching, m.Followed → (∀ f g, m.Touches f → m.Touches g → f.OneHandle g) →
      ∀ a : Archive, a.Readable m.Touches →
        ((∃ cause, ((t.add m).run a).1.1 = .error (.inconsistent cause)) ↔ t.Regresses last m) ∧
          (¬ t.Regresses last m → ((t.add m).run a).1.1 = .ok ()) := by
  have order := h.inOrder
  refine ⟨order.ordered, order.current, fun m followed apart a readable => ?_⟩
  have near : ∀ f p, some f ∈ m.targets → m.predecessor f = some p →
      ∀ r ∈ p.ranges ++ f.ranges, m.Touches r.file := by
    intro f p hf hp r hr
    obtain ⟨link, -, -, source⟩ := Matching.link_of_predecessor hp
    rcases List.mem_append.mp hr with hr | hr
    · exact ⟨p, r, List.mem_append_left _ (List.mem_of_getElem? source), hr, rfl⟩
    · exact ⟨f, r, List.mem_append_right _ hf, hr, rfl⟩
  obtain ⟨refused, taken⟩ := order.answer_checkedPlan_iff followed apart near readable
  have refuses : t.Regresses last m →
      ∃ cause, ((t.add m).run a).1.1 = .error (.inconsistent cause) := by
    intro back
    obtain ⟨cause, told⟩ := refused back
    exact ⟨cause, by rw [run_add_error told]⟩
  have takes : ¬ t.Regresses last m → ((t.add m).run a).1.1 = .ok () := by
    intro onward
    obtain ⟨plan, hp⟩ := taken onward
    rw [order.sound.run_add followed.mapped.made hp]
  refine ⟨⟨fun ⟨cause, told⟩ => ?_, refuses⟩, takes⟩
  by_contra onward
  rw [takes onward] at told
  cases told

/-- After a step of ordinal 2, one of ordinal 1 is refused if it goes on from there, but not
if it starts afresh. -/
theorem Stepped.add_rejects_back :
    let f := Fragment.plain 0 [Range.ofFirst ⟨⟨"a", "r1"⟩, .memory ['x']⟩]
    let g := Fragment.plain 1 [Range.ofFirst ⟨⟨"a", "r2"⟩, .memory ['y']⟩]
    let back : Matching := ⟨1, [some f], [some g], [⟨0, 0, .position⟩]⟩
    let afresh : Matching := ⟨1, [], [some g], []⟩
    let t := ((Tracker.empty.add ⟨2, [], [some f], []⟩).run Archive.empty).1.2
    t.Stepped (some 2) ∧ back.Followed ∧ afresh.Followed ∧
      (∃ cause, ((t.add back).run Archive.empty).1.1 = .error (.inconsistent cause)) ∧
        ((t.add afresh).run Archive.empty).1.1 = .ok () := by
  intro f g back afresh t
  let step (ordinal : Int) (revision : String) (predecessor : Option String) : Step :=
    ⟨ordinal, revision, predecessor, [], []⟩
  have first_made : (step 2 "r1" none).Made :=
    ⟨2, "r1", none, [], some [], Archive.empty, rfl⟩
  have next_made : (step 1 "r2" (some "r1")).Made :=
    ⟨1, "r2", some "r1", [], some [], Archive.empty, rfl⟩
  have first : Matching.Followed ⟨2, [], [some f], []⟩ :=
    ⟨.make [], ⟨[f]⟩, [], [some f], step 2 "r1" none, Archive.empty, _, first_made, rfl⟩
  have goes_back : back.Followed :=
    ⟨.make [], ⟨[g]⟩, [some f], [some g], step 1 "r2" (some "r1"), Archive.empty, _, next_made, rfl⟩
  have starts_afresh : afresh.Followed :=
    ⟨.make [], ⟨[g]⟩, [], [some g], step 1 "r2" (some "r1"), Archive.empty, _, next_made, rfl⟩
  let one := (Tracker.empty.add ⟨2, [], [some f], []⟩).run Archive.empty
  have run : one = ((.ok (), t), one.2) := rfl
  have stepped : t.Stepped (some 2) := .added .empty first run
  have inMemory : ∀ m : Matching, (∀ p, some p ∈ m.sources ++ m.targets → p = f ∨ p = g) →
      ∀ file, m.Touches file → file.handle? = none ∧
        ∃ text, file.text.answer Archive.empty = .ok text := by
    rintro m among file ⟨p, r, hp, hr, rfl⟩
    rcases among p hp with rfl | rfl <;> rw [List.mem_singleton.mp hr] <;> exact ⟨rfl, _, rfl⟩
  have memory_back := inMemory back (by simp [back])
  have memory_afresh := inMemory afresh (by simp [afresh])
  obtain ⟨-, -, decides⟩ := stepped.add_rejects
  obtain ⟨refused, -⟩ := decides back goes_back
    (fun p q hp _ _ own => absurd (memory_back p hp).1 own) Archive.empty
    fun p hp => (memory_back p hp).2
  obtain ⟨-, taken⟩ := decides afresh starts_afresh
    (fun p q hp _ _ own => absurd (memory_afresh p hp).1 own) Archive.empty
    fun p hp => (memory_afresh p hp).2
  have regresses : t.Regresses (some 2) back :=
    ⟨⟨2, rfl, by decide⟩, g, f, List.mem_singleton_self _, rfl, rfl⟩
  have onward : ¬ t.Regresses (some 2) afresh := by
    rintro ⟨-, p, q, -, pred, -⟩
    unfold Matching.predecessor at pred
    obtain ⟨j, -, linked⟩ := Option.bind_eq_some_iff.mp pred
    cases linked
  exact ⟨stepped, goes_back, starts_afresh, refused.mpr regresses, taken onward⟩

end Tracker
end Lineage
