/-
# Sessions

In a session a matcher and a tracker follow history together. Every step that can be matched
is then taken in by the tracker, and a step that cannot is passed over. All the while the
tracker knows exactly the fragments that the matcher goes on from: so no predecessor is
untracked, and every link continues a lifespan (`Session.InStep`).

A step that fails leaves nothing behind but what it found, which is kept in the archive. What
is found there later is what would have been found anyway, so without the failures the session
comes to the same end (`Session.Run.without_failures`).

Key definitions: `Call`, `Session`, `Session.Run`, `Session.InStep`.
Key theorems: `Session.InStep.advance`, `Session.InStep.extends_lifespan`, `Session.Run.unique`,
`Session.Run.without_failures`, `Session.Run.in_step`.
-/
import Lineage.Proofs.Archive.Consulting
import Lineage.Proofs.Tracking.Outcomes
import Mathlib.Algebra.GroupWithZero.Nat

namespace Lineage

/-- What a matcher is asked to match. -/
structure Call where
  targets : List (Option Fragment)
  step : Step

/-- The files that the targets of a call lie in, and its changes, are in a scope. -/
structure Call.Within (c : Call) (o : Scope) : Prop where
  files : ∀ f, some f ∈ c.targets → ∀ r ∈ f.ranges, o.file r.file
  changes : ∀ d ∈ c.step.changes, o.change d

/-- A matcher and a tracker at work, and the archive they work against. -/
structure Session where
  matcher : Matcher
  tracker : Tracker
  archive : Archive

namespace Session

/-- A session in which nothing has happened. -/
def fresh (a : Archive) : Session :=
  ⟨.make [], .empty, a⟩

/-- A call cannot be matched, and the tracker is not asked. -/
def Fails (s : Session) (c : Call) (s' : Session) : Prop :=
  ∃ e, (s.matcher.mapNext c.targets c.step).run s.archive =
    ((.error e, s'.matcher), s'.archive) ∧ s'.tracker = s.tracker

/-- A call is matched, and the tracker takes in the matching. -/
def Advances (s : Session) (c : Call) (m : Matching) (s' : Session) : Prop :=
  ∃ b, (s.matcher.mapNext c.targets c.step).run s.archive = ((.ok m, s'.matcher), b) ∧
    (s.tracker.add m).run b = ((.ok (), s'.tracker), s'.archive)

/-- The run of a session, with the calls that were made and those among them that were
matched. Whatever is matched is taken in by the tracker. -/
inductive Run (a : Archive) : List Call → List (Call × Matching) → Session → Prop
  | fresh : Run a [] [] (fresh a)
  | fail {calls : List Call} {done : List (Call × Matching)} {s s' : Session} {c : Call}
    (run : Run a calls done s) (fails : s.Fails c s') : Run a (calls ++ [c]) done s'
  | advance {calls : List Call} {done : List (Call × Matching)} {s s' : Session} {c : Call}
    {m : Matching} (run : Run a calls done s) (advances : s.Advances c m s') :
    Run a (calls ++ [c]) (done ++ [(c, m)]) s'

section Unique

variable {s s' s'' : Session} {c : Call} {m m' : Matching}

/-- A call that cannot be matched leaves behind another archive and nothing else. -/
theorem Fails.eq (h : s.Fails c s') : s' = { s with archive := s'.archive } := by
  obtain ⟨e, run, tracker⟩ := h
  obtain ⟨matcher, _, archive⟩ := s'
  obtain ⟨-, rfl⟩ := Matcher.run_map_eq_error.mp run
  obtain rfl := tracker
  rfl

theorem Fails.unique (h : s.Fails c s') (h' : s.Fails c s'') : s' = s'' := by
  have archive : s'.archive = s''.archive := by
    obtain ⟨e, run, -⟩ := h
    obtain ⟨e', run', -⟩ := h'
    exact congrArg Prod.snd (run.symm.trans run')
  rw [h.eq, h'.eq, archive]

theorem Fails.not_advances (h : s.Fails c s') : ¬ s.Advances c m s'' := by
  rintro ⟨b, run, -⟩
  obtain ⟨e, run', -⟩ := h
  cases run.symm.trans run'

theorem Advances.unique (h : s.Advances c m s') (h' : s.Advances c m' s'') :
    m = m' ∧ s' = s'' := by
  obtain ⟨b, run, added⟩ := h
  obtain ⟨b', run', added'⟩ := h'
  obtain ⟨matcher, tracker, archive⟩ := s'
  obtain ⟨matcher', tracker', archive'⟩ := s''
  cases run.symm.trans run'
  cases added.symm.trans added'
  exact ⟨rfl, rfl⟩

end Unique

/-! ### In step -/

/-- Matcher and tracker are in step: what is tracked are the fragments that the matcher goes
on from, and there is a lifespan for every target so far that has no link. -/
structure InStep (o : Scope) (a : Archive) (done : List (Call × Matching)) (s : Session) :
    Prop where
  onward : a.Onward o s.archive
  sound : s.tracker.Sound
  nodup : (s.matcher.previous.map (·.handle)).Nodup
  known : ∀ f ∈ s.matcher.previous, ∀ r ∈ f.ranges, o.file r.file
  tracked : s.tracker.tracked.map Prod.fst = s.matcher.previous.map (·.handle)
  count : s.tracker.lifespans.length + (done.map fun x => x.2.links.length).sum =
    (done.map fun x => x.2.targets.length).sum

theorem inStep_fresh (o : Scope) (a : Archive) : InStep o a [] (fresh a) where
  onward := .refl o a
  sound := Tracker.sound_empty
  nodup := .nil
  known f hf := by cases hf
  tracked := rfl
  count := rfl

theorem consults_call {o : Scope} {a : Archive} (matcher : Matcher) {c : Call}
    (hc : c.Within o) :
    (Matching.ofLists (matcher.previous.map some) c.targets c.step).Consults o a :=
  Matching.consults_ofLists _ _ hc.changes

namespace InStep

variable {o : Scope} {a b b' : Archive} {done : List (Call × Matching)} {s s' : Session}
  {c : Call} {m : Matching} {next : Matcher}

/-- A tracker knows what has the handle of a fragment that the matcher goes on from. -/
theorem isSome_find (h : InStep o a done s) (f : Fragment) :
    (s.tracker.find f).isSome ↔ ∃ g ∈ s.matcher.previous, g.handle = f.handle := by
  have keys : (∃ g ∈ s.matcher.previous, g.handle = f.handle) ↔
      (s.tracker.tracked.lookup f.handle).isSome := by
    rw [← List.mem_map, ← h.tracked, List.lookup_isSome_iff, List.mem_map]
    exact exists_congr fun x => and_congr_right fun _ => by rw [beq_iff_eq, eq_comm]
  rw [keys]
  constructor
  · intro found
    obtain ⟨⟨k, l⟩, hf⟩ := Option.isSome_iff_exists.mp found
    exact Option.isSome_iff_exists.mpr ⟨k, (Tracker.find_eq_some.mp hf).1⟩
  · intro placed
    obtain ⟨k, hk⟩ := Option.isSome_iff_exists.mp placed
    have inside := List.getElem?_eq_getElem (h.sound.inside _ _ hk)
    exact Option.isSome_iff_exists.mpr ⟨_, Tracker.find_eq_some.mpr ⟨hk, inside⟩⟩

theorem sides (h : InStep o a done s)
    (mapped : (s.matcher.mapNext c.targets c.step).run b = ((.ok m, next), b')) :
    m.sources = s.matcher.previous.map some ∧ m.targets = next.previous.map some ∧
      next.previous = Fragment.distinct c.targets := by
  obtain ⟨sources, targets⟩ := Matching.sides_of_map mapped
  rw [Fragment.distinct_of_nodup h.nodup] at sources
  exact ⟨sources, by rw [targets, Matching.targets_of_map mapped], targets⟩

theorem find_predecessor (h : InStep o a done s)
    (mapped : (s.matcher.mapNext c.targets c.step).run b = ((.ok m, next), b')) {f p : Fragment}
    (pred : m.predecessor f = some p) :
    p ∈ s.matcher.previous ∧ (s.tracker.find p).isSome := by
  obtain ⟨l, -, -, source⟩ := Matching.link_of_predecessor pred
  rw [(h.sides mapped).1] at source
  obtain ⟨_, hp, ⟨⟩⟩ := List.mem_map.mp (List.mem_of_getElem? source)
  exact ⟨hp, (h.isSome_find p).mpr ⟨p, hp, rfl⟩⟩

theorem known_targets (h : InStep o a done s) (hc : c.Within o)
    (mapped : (s.matcher.mapNext c.targets c.step).run b = ((.ok m, next), b')) :
    ∀ f ∈ next.previous, ∀ r ∈ f.ranges, o.file r.file := by
  intro f hf
  rw [(h.sides mapped).2.2] at hf
  exact hc.files f (Fragment.mem_of_mem_distinct hf)

/-- To plan for the next step is to compare fragments of the scope; there is nothing to
warn of. -/
theorem consults_checkedPlan (h : InStep o a done s) (hc : c.Within o)
    (mapped : (s.matcher.mapNext c.targets c.step).run b = ((.ok m, next), b')) :
    (s.tracker.checkedPlan m).Consults o a := by
  apply s.tracker.modular_checkedPlan (Work.Consults.modular o a)
  · intro f p hf pred r hr
    rw [(h.sides mapped).2.1] at hf
    obtain ⟨_, target, ⟨⟩⟩ := List.mem_map.mp hf
    rcases List.mem_append.mp hr with hr | hr
    · exact File.consults_bytes (h.known p (h.find_predecessor mapped pred).1 r hr)
    · exact File.consults_bytes (h.known_targets hc mapped f target r hr)
  · intro f p _ pred lost
    have found := (h.find_predecessor mapped pred).2
    rw [lost] at found
    cases found

theorem fail (h : InStep o a done s) (hc : c.Within o) (fails : s.Fails c s') :
    InStep o a done s' := by
  have onward := (consults_call s.matcher hc).onward _ h.onward
  rw [fails.eq]
  obtain ⟨e, run, -⟩ := fails
  rw [Work.after_of_run (Matcher.run_map_eq_error.mp run).1] at onward
  exact { h with onward }

theorem outcomes (h : InStep o a done s) (advances : s.Advances c m s') :
    ∃ outcomes : List (Fragment × Tracker.Outcome),
      s'.matcher.previous = outcomes.map Prod.fst ∧ (outcomes.map (·.1.handle)).Nodup ∧
        (∀ x ∈ outcomes, s.tracker.Yields m s'.archive x.1 x.2) ∧
          s'.tracker = s.tracker.carriedOut
            (.ofOutcomes s.tracker.lifespans.length outcomes) := by
  obtain ⟨b, mapped, added⟩ := advances
  obtain ⟨-, outcomes, targets, yields, tracker⟩ :=
    h.sound.outcomes_of_add (.mapped mapped) added
  obtain ⟨-, targets', distinct⟩ := h.sides mapped
  have handles : (s'.matcher.previous.map (·.handle)).Nodup :=
    distinct ▸ Fragment.nodup_distinct c.targets
  obtain ⟨previous, nodup⟩ :=
    Plan.fragments_of_targets (targets'.symm.trans targets) handles
  exact ⟨outcomes, previous, nodup, yields, tracker⟩

/-- A step that is taken in here is taken in likewise in every archive of the session. -/
theorem replay (h : InStep o a done s) (hc : c.Within o) (advances : s.Advances c m s')
    (hb : a.Onward o b) :
    ∃ b', ({ s with archive := b } : Session).Advances c m { s' with archive := b' } ∧
      a.Onward o b' := by
  obtain ⟨here, mapped, added⟩ := advances
  obtain ⟨run, moved⟩ := Matcher.run_map_eq_ok.mp mapped
  have made : m.Made := .mapped mapped
  have maps := consults_call (a := a) s.matcher hc
  have plans := h.consults_checkedPlan hc mapped
  have onward_here := maps.onward _ h.onward
  have onward_there := maps.onward b hb
  rw [Work.after_of_run run] at onward_here
  obtain ⟨plan, planned, tracker, -⟩ := h.sound.planned_of_add made added
  -- both archives go back to one base, and what is asked is answered as in the base
  let work := Matching.ofLists (s.matcher.previous.map some) c.targets c.step
  let there := work.after b
  have run' : work.run b = (.ok m, there) := by
    rw [Work.run_eq, maps.answer b hb, ← maps.answer _ h.onward, Work.answer_of_run run]
  have planned' : (s.tracker.checkedPlan m).answer there = .ok plan := by
    calc (s.tracker.checkedPlan m).answer there
      _ = (s.tracker.checkedPlan m).answer a := plans.answer _ onward_there
      _ = (s.tracker.checkedPlan m).answer here := (plans.answer _ onward_here).symm
      _ = .ok plan := planned
  have told := (plans.onward _ onward_there).note (n := s.tracker.told m plan) Level.noConfusion
  refine ⟨_, ⟨there, ?_, ?_⟩, told⟩
  · exact Matcher.run_map_eq_ok.mpr ⟨run', moved⟩
  · rw [h.sound.run_add made planned', tracker]

/-- A step that is taken in leaves matcher and tracker in step. -/
theorem advance (h : InStep o a done s) (hc : c.Within o) (advances : s.Advances c m s') :
    InStep o a (done ++ [(c, m)]) s' := by
  obtain ⟨outcomes, previous, nodup, yields, tracker⟩ := h.outcomes advances
  obtain ⟨b, again, onward⟩ := h.replay hc advances h.onward
  obtain ⟨-, same⟩ := advances.unique again
  obtain ⟨here, mapped, -⟩ := advances
  have wellFormed := Matching.wellFormed_of_map mapped
  obtain ⟨-, targets, distinct⟩ := h.sides mapped
  have handles : s'.matcher.previous.map (·.handle) = outcomes.map (·.1.handle) := by
    rw [previous, List.map_map]
    rfl
  refine ⟨by rwa [same], ?_, ?_, h.known_targets hc mapped, ?_, ?_⟩
  · rw [tracker]
    exact Tracker.sound_carriedOut h.sound wellFormed yields
  · rwa [handles]
  · rw [tracker, handles]
    exact Plan.keys_ofOutcomes nodup
  · -- a target has a link or begins a lifespan
    have links := wellFormed.length_links targets (handles ▸ nodup)
    have lifespans := Tracker.length_carriedOut yields
      fun x _ p pred => (h.find_predecessor mapped pred).2
    have length : m.targets.length = outcomes.length := by
      rw [targets, previous, List.length_map, List.length_map]
    have before := h.count
    rw [previous] at links
    rw [tracker, List.map_append, List.map_append, List.sum_append, List.sum_append,
      List.map_singleton, List.map_singleton, List.sum_singleton, List.sum_singleton]
    dsimp only
    omega

/-- Every link continues a lifespan that was there before. -/
theorem extends_lifespan (h : InStep o a done s) (advances : s.Advances c m s') {l : Link}
    (hl : l ∈ m.links) : ∃ p f k life snapshot, m.sources[l.source]? = some (some p) ∧
      m.targets[l.target]? = some (some f) ∧ m.predecessor f = some p ∧
        s.tracker.find p = some (k, life) ∧
          s'.tracker.find f = some (k, life.push snapshot) := by
  obtain ⟨outcomes, previous, nodup, yields, tracker⟩ := h.outcomes advances
  obtain ⟨b, mapped, -⟩ := advances
  have wellFormed := Matching.wellFormed_of_map mapped
  obtain ⟨p, f, hp, hf, pred, -⟩ := wellFormed.predecessor_of_link hl
  obtain ⟨⟨k, life⟩, found⟩ := Option.isSome_iff_exists.mp (h.find_predecessor mapped pred).2
  have target : f ∈ s'.matcher.previous := by
    have mem := List.mem_of_getElem? hf
    rw [(h.sides mapped).2.1] at mem
    exact (List.mem_map_of_injective fun _ _ => Option.some.inj).mp mem
  rw [previous] at target
  obtain ⟨⟨f', outcome⟩, ho, rfl⟩ := List.mem_map.mp target
  cases outcome with
  | begins snapshot =>
    have lost := (yields _ ho).1
    rw [pred, Option.bind_some, found] at lost
    cases lost
  | continues k' snapshot =>
    obtain ⟨p', life', differ, pred', found', -⟩ := yields _ ho
    cases pred.symm.trans pred'
    cases found.symm.trans found'
    have inside := (Tracker.find_eq_some.mp found).2
    have last := h.sound.find_carriedOut wellFormed yields nodup ho inside
    rw [← tracker] at last
    exact ⟨p, f', k, life, snapshot, hp, hf, pred, found, last⟩

end InStep

/-! ### Runs -/

namespace Run

variable {o : Scope} {a : Archive} {calls : List Call} {done : List (Call × Matching)}
  {s : Session}

theorem cases_concat {c : Call} (h : Run a (calls ++ [c]) done s) : ∃ before t,
    Run a calls before t ∧ ((before = done ∧ t.Fails c s) ∨
      ∃ m, done = before ++ [(c, m)] ∧ t.Advances c m s) := by
  generalize e : calls ++ [c] = all at h
  cases h with
  | fresh => exact absurd e (List.append_ne_nil_of_right_ne_nil _ (List.cons_ne_nil _ _))
  | fail run fails =>
    obtain ⟨rfl, last⟩ := List.append_inj' e rfl
    cases last
    exact ⟨_, _, run, .inl ⟨rfl, fails⟩⟩
  | advance run advances =>
    obtain ⟨rfl, last⟩ := List.append_inj' e rfl
    cases last
    exact ⟨_, _, run, .inr ⟨_, rfl, advances⟩⟩

/-- A session comes to one end. -/
theorem unique (h : Run a calls done s) : ∀ {done' : List (Call × Matching)} {s' : Session},
    Run a calls done' s' → done' = done ∧ s' = s := by
  induction h with
  | fresh =>
    intro done' s' h'
    generalize e : ([] : List Call) = all at h'
    cases h' with
    | fresh => exact ⟨rfl, rfl⟩
    | fail => simp at e
    | advance => simp at e
  | fail run fails ih =>
    intro done' s' h'
    obtain ⟨before, t, run', ⟨rfl, fails'⟩ | ⟨m, rfl, advances⟩⟩ := h'.cases_concat
    · obtain ⟨rfl, rfl⟩ := ih run'
      exact ⟨rfl, fails'.unique fails⟩
    · obtain ⟨rfl, rfl⟩ := ih run'
      exact absurd advances (fails.not_advances)
  | advance run advances ih =>
    intro done' s' h'
    obtain ⟨before, t, run', ⟨rfl, fails⟩ | ⟨m, rfl, advances'⟩⟩ := h'.cases_concat
    · obtain ⟨rfl, rfl⟩ := ih run'
      exact absurd advances (fails.not_advances)
    · obtain ⟨rfl, rfl⟩ := ih run'
      obtain ⟨rfl, rfl⟩ := advances'.unique advances
      exact ⟨rfl, rfl⟩

/-- Matcher and tracker stay in step, and without the calls that failed the session comes to
the same end. -/
theorem without_failures (run : Run a calls done s) (within : ∀ c ∈ calls, c.Within o) :
    InStep o a done s ∧
      ∃ b, a.Onward o b ∧ Run a (done.map Prod.fst) done { s with archive := b } := by
  induction run with
  | fresh => exact ⟨inStep_fresh o a, a, .refl o a, .fresh⟩
  | @fail calls done s s' c run fails ih =>
    obtain ⟨inStep, b, onward, again⟩ := ih fun d hd => within d (List.mem_append_left _ hd)
    have hc := within c (List.mem_append_right _ List.mem_cons_self)
    refine ⟨inStep.fail hc fails, b, onward, ?_⟩
    rw [fails.eq]
    exact again
  | @advance calls done s s' c m run advances ih =>
    obtain ⟨inStep, b, onward, again⟩ := ih fun d hd => within d (List.mem_append_left _ hd)
    have hc := within c (List.mem_append_right _ List.mem_cons_self)
    obtain ⟨b', advances', onward'⟩ := inStep.replay hc advances onward
    refine ⟨inStep.advance hc advances, b', onward', ?_⟩
    rw [List.map_append, List.map_singleton]
    exact again.advance advances'

/-- In every run of a session, its files and changes told apart by their handles, matcher and
tracker stay in step: the tracker knows exactly the fragments that the matcher goes on from,
nothing was warned of, no predecessor is untracked in the next step and every link of it
continues a lifespan, and there are as many lifespans as targets less links. Without the calls
that failed the session comes to the same end, and to no other. -/
theorem in_step (run : Run a calls done s) (within : ∀ c ∈ calls, c.Within o) :
    s.tracker.tracked.map Prod.fst = s.matcher.previous.map (·.handle) ∧
      (∀ f, (s.tracker.find f).isSome ↔ ∃ g ∈ s.matcher.previous, g.handle = f.handle) ∧
      (∃ told, s.archive.log = a.log ++ told ∧ ∀ n ∈ told, n.level ≠ .warning) ∧
      (∀ c m s', s.Advances c m s' →
        (∀ f p, m.predecessor f = some p → (s.tracker.find p).isSome) ∧
        ∀ l ∈ m.links, ∃ p f k life snapshot, m.sources[l.source]? = some (some p) ∧
          m.targets[l.target]? = some (some f) ∧ m.predecessor f = some p ∧
            s.tracker.find p = some (k, life) ∧
              s'.tracker.find f = some (k, life.push snapshot)) ∧
      s.tracker.lifespans.length + (done.map fun x => x.2.links.length).sum =
        (done.map fun x => x.2.targets.length).sum ∧
      ∃ s', s'.matcher = s.matcher ∧ s'.tracker = s.tracker ∧
        ∀ done' s'', Run a (done.map Prod.fst) done' s'' ↔ done' = done ∧ s'' = s' := by
  obtain ⟨inStep, b, -, again⟩ := run.without_failures within
  refine ⟨inStep.tracked, inStep.isSome_find, inStep.onward.told, fun c m s' advances => ?_,
    inStep.count, { s with archive := b }, rfl, rfl, fun done' s'' => ⟨again.unique, ?_⟩⟩
  · refine ⟨fun f p pred => ?_, fun l hl => inStep.extends_lifespan advances hl⟩
    obtain ⟨b, mapped, -⟩ := advances
    exact (inStep.find_predecessor (mapped) pred).2
  · rintro ⟨rfl, rfl⟩
    exact again

end Run

/-- Two steps, and between them one that fails over a change without files. -/
theorem Run.in_step_without_files :
    let f := Fragment.plain 0 [Range.ofFirst ⟨⟨"a", "r1"⟩, .memory ['x']⟩]
    let g := Fragment.plain 1 [Range.ofFirst ⟨⟨"a", "r2"⟩, .memory ['y']⟩]
    let change : Change := ⟨0, none, none, .scripted []⟩
    let first : Call := ⟨[some f], ⟨1, "r1", none, [], []⟩⟩
    let failing : Call := ⟨[some g], ⟨2, "r2", some "r1", [], [change]⟩⟩
    let second : Call := ⟨[some g], ⟨2, "r2", some "r1", [], []⟩⟩
    let m : Matching := ⟨1, [], [some f], []⟩
    let m' : Matching := ⟨2, [some f], [some g], [⟨0, 0, .position⟩]⟩
    ∃ s, Run .empty [first, failing, second] [(first, m), (second, m')] s ∧
      s.tracker.tracked.map Prod.fst = [1] ∧ s.tracker.lifespans.length + 1 = 2 ∧
      (∀ n ∈ s.archive.log, n.level ≠ .warning) ∧
      ∃ s', s'.tracker = s.tracker ∧ Run .empty [first, second] [(first, m), (second, m')] s' := by
  intro f g change first failing second m m'
  let s₀ := Session.fresh .empty
  let b₁ := ((s₀.matcher.mapNext first.targets first.step).run s₀.archive).2
  let added₁ := (s₀.tracker.add m).run b₁
  let s₁ : Session := ⟨⟨[f]⟩, added₁.1.2, added₁.2⟩
  let failed := (s₁.matcher.mapNext failing.targets failing.step).run s₁.archive
  let s₂ : Session := ⟨⟨[f]⟩, added₁.1.2, failed.2⟩
  let b₃ := ((s₂.matcher.mapNext second.targets second.step).run s₂.archive).2
  let added₃ := (s₂.tracker.add m').run b₃
  let s₃ : Session := ⟨⟨[g]⟩, added₃.1.2, added₃.2⟩
  have one : s₀.Advances first m s₁ := ⟨b₁, rfl, rfl⟩
  have two : s₁.Fails failing s₂ := ⟨_, rfl, rfl⟩
  have three : s₂.Advances second m' s₃ := ⟨b₃, rfl, rfl⟩
  have run : Run .empty [first, failing, second] [(first, m), (second, m')] s₃ :=
    .advance (.fail (.advance .fresh one) two) three
  let o : Scope := {
    file := fun f => f.handle? = none
    change := fun c => c = change
    oneFile := fun f g hf _ _ some => absurd hf some
    oneChange := fun c d hc hd _ => hc.trans hd.symm
    file_of_change := fun c hc f hf => by
      rw [hc] at hf
      cases hf }
  have within : ∀ c ∈ [first, failing, second], c.Within o := by
    have memory : ∀ p, p = f ∨ p = g → ∀ r ∈ p.ranges, o.file r.file := by
      rintro p (rfl | rfl) r hr <;> rw [List.mem_singleton.mp hr] <;> rfl
    have calls : ∀ c ∈ [first, failing, second], (c.targets = [some f] ∨ c.targets = [some g]) ∧
        ∀ d ∈ c.step.changes, d = change := by
      simp [first, failing, second]
    intro c hc
    obtain ⟨targets, changes⟩ := calls c hc
    refine ⟨fun p hp => memory p ?_, changes⟩
    rcases targets with e | e
    · rw [e, List.mem_singleton] at hp
      exact .inl (Option.some.inj hp)
    · rw [e, List.mem_singleton] at hp
      exact .inr (Option.some.inj hp)
  obtain ⟨tracked, -, ⟨told, log, quiet⟩, -, count, s', -, same, all⟩ := run.in_step within
  refine ⟨s₃, run, tracked, count, fun n hn => quiet n ?_, s', same, (all _ _).mpr ⟨rfl, rfl⟩⟩
  rwa [log] at hn

end Session
end Lineage
