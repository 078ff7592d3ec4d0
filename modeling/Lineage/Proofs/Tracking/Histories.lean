/-
# Histories

A tracker that has taken in the matchings of successive steps holds one lifespan
for every chain of targets, in the order in which the chains begin; its snapshots
show the fragments of the chain, and count how often their contents differed. The
invariant of a run says this of the chains so far, and that the tracker leads from
the targets of the last step to the lifespans that end with them (`Tracker.Story`).

Key definitions: `Tracker.Run`, `Snapshot.Shows`, `Tracker.Tells`, `Tracker.Story`.
Key theorems: `Tracker.Story.add`, `Tracker.Run.histories`.
-/
import Lineage.Proofs.Tracking.Chains
import Lineage.Proofs.Tracking.Outcomes

namespace Lineage

/-! ### What lifespans tell -/

/-- A snapshot shows a fragment in a step. -/
structure Snapshot.Shows (s : Snapshot) (f : Fragment) (ordinal changes : Int) : Prop where
  ordinal : s.ordinal = ordinal
  revision : ∃ r rs, f.ranges = r :: rs ∧ s.revision = r.file.version.revision
  locations : s.locations = f.ranges.map Location.ofRange
  changes : s.changes = changes
  metadata : s.metadata = f.metadata

theorem Snapshot.shows_ofFragment {f : Fragment} {ordinal changes : Int} {s : Snapshot}
    (h : Snapshot.ofFragment f ordinal changes = .ok s) : s.Shows f ordinal changes := by
  unfold Snapshot.ofFragment at h
  split at h
  · cases h
  · rename_i r rs hf
    split at h
    · split at h
      · cases h
        exact ⟨rfl, ⟨r, rs, hf, rfl⟩, rfl, rfl, rfl⟩
      · cases h
    · cases h

namespace Tracker

/-- Whether the contents of two successive fragments of a chain differ. -/
def differAt (a : Archive) (fs : List Fragment) (i : Nat) : Bool :=
  match fs[i]?, fs[i + 1]? with
  | some f, some g =>
    match (contentsDiffer f g).answer a with
    | .ok differ => differ
    | .error _ => false
  | _, _ => false

/-- How often the contents of a chain differed before a fragment. -/
def changesBefore (a : Archive) (fs : List Fragment) (i : Nat) : Nat :=
  (List.range i).countP (differAt a fs)

/-- A lifespan tells of a chain from matching `k` on. -/
structure Tells (ms : List Matching) (a : Archive) (k : Nat) (fs : List Fragment) (l : Lifespan) :
    Prop where
  length : l.snapshots.length = fs.length
  compared : ∀ i f g, fs[i]? = some f → fs[i + 1]? = some g →
    ∃ differ, (contentsDiffer f g).Settled a differ
  shows : ∀ i f s, fs[i]? = some f → l.snapshots[i]? = some s →
    ∃ m, ms[k + i]? = some m ∧ s.Shows f m.ordinal (changesBefore a fs i)

theorem changesBefore_succ (a : Archive) (fs : List Fragment) (i : Nat) :
    changesBefore a fs (i + 1) = changesBefore a fs i + if differAt a fs i then 1 else 0 := by
  unfold changesBefore
  rw [List.range_succ, List.countP_append, List.countP_singleton]

theorem changesBefore_congr {a b : Archive} {fs gs : List Fragment} : ∀ {i : Nat},
    (∀ j, j < i → differAt a fs j = differAt b gs j) → changesBefore a fs i = changesBefore b gs i
  | 0, _ => rfl
  | i + 1, h => by
    rw [changesBefore_succ, changesBefore_succ, h i (Nat.lt_succ_self i),
      changesBefore_congr fun j lt => h j (Nat.lt_succ_of_lt lt)]

section Grow

variable {ms : List Matching} {m : Matching} {a b : Archive} {k : Nat} {fs : List Fragment}
  {l : Lifespan}

/-- Comparisons that were made come out the same later, also in a longer chain. -/
theorem Tells.differAt_eq (h : Tells ms a k fs l) (kept : a.Within b)
    (later : List Fragment) {i : Nat} (lt : i + 1 < fs.length) :
    differAt a fs i = differAt b (fs ++ later) i := by
  have hf := List.getElem?_eq_getElem (l := fs) (i := i) (by omega)
  have hg := List.getElem?_eq_getElem lt
  obtain ⟨differ, hd⟩ := h.compared i _ _ hf hg
  unfold differAt
  rw [List.getElem?_append_left lt, List.getElem?_append_left (by omega : i < fs.length), hf, hg]
  simp only [hd.answer, hd b kept]

theorem Tells.changesBefore_eq (h : Tells ms a k fs l) (kept : a.Within b)
    (later : List Fragment) {i : Nat} (lt : i < fs.length) :
    changesBefore a fs i = changesBefore b (fs ++ later) i :=
  changesBefore_congr fun _ lt' => h.differAt_eq kept later (by omega)

theorem Tells.mono (h : Tells ms a k fs l) (kept : a.Within b) (m : Matching) :
    Tells (ms ++ [m]) b k fs l := by
  refine ⟨h.length, fun i f g hf hg => ?_, fun i f s hf hs => ?_⟩
  · obtain ⟨differ, hd⟩ := h.compared i f g hf hg
    exact ⟨differ, hd.mono kept⟩
  · obtain ⟨m', hm, shows⟩ := h.shows i f s hf hs
    have same := h.changesBefore_eq kept [] (List.getElem?_eq_some_iff.mp hf).1
    rw [List.append_nil] at same
    exact ⟨m', getElem?_snoc.mpr (.inl hm), same ▸ shows⟩

theorem getElem?_last (l : Lifespan) : l.snapshots[l.snapshots.length - 1]? = some l.last := by
  rw [← List.getLast?_eq_getElem?]
  exact List.getLast?_cons

theorem Tells.changes_eq (h : Tells ms a k fs l) {n : Nat} (hn : fs.length = n + 1) :
    l.changes = changesBefore a fs n := by
  have last := getElem?_last l
  rw [h.length, hn, Nat.add_sub_cancel] at last
  have hf := List.getElem?_eq_getElem (l := fs) (i := n) (by omega)
  obtain ⟨m', -, shows⟩ := h.shows n _ _ hf last
  exact shows.changes

/-- How the number of changes goes on when a lifespan is continued. -/
theorem Tells.changes_push (h : Tells ms a k fs l) (kept : a.Within b) {n : Nat}
    (hn : fs.length = n + 1) {p f : Fragment} (hp : fs[n]? = some p) {differ : Bool}
    (hd : (contentsDiffer p f).Settled b differ) :
    (if differ then l.changes + 1 else l.changes) =
      (changesBefore b (fs ++ [f]) (n + 1) : Int) := by
  have before : (fs ++ [f])[n]? = some p := getElem?_snoc.mpr (.inl hp)
  have here : (fs ++ [f])[n + 1]? = some f := getElem?_snoc.mpr (.inr ⟨hn.symm, rfl⟩)
  have at_last : differAt b (fs ++ [f]) n = differ := by
    unfold differAt
    simp only [before, here, hd.answer]
  rw [changesBefore_succ, at_last, h.changes_eq hn, h.changesBefore_eq kept [f] (by omega)]
  cases differ <;> simp

theorem Tells.push (h : Tells ms a k fs l) (kept : a.Within b) (hk : k + fs.length = ms.length)
    {p f : Fragment} (hp : fs.getLast? = some p) {differ : Bool}
    (hd : (contentsDiffer p f).Settled b differ) {s : Snapshot}
    (hs : Snapshot.ofFragment f m.ordinal (if differ then l.changes + 1 else l.changes) = .ok s) :
    Tells (ms ++ [m]) b k (fs ++ [f]) (l.push s) := by
  obtain ⟨n, hn⟩ : ∃ n, fs.length = n + 1 := by
    have ne : fs ≠ [] := fun e => by rw [e] at hp; cases hp
    exact Nat.exists_eq_succ_of_ne_zero fun e => ne (List.length_eq_zero_iff.mp e)
  have hp' : fs[n]? = some p := by
    rw [List.getLast?_eq_getElem?, hn] at hp
    exact hp
  have before : (fs ++ [f])[n]? = some p := getElem?_snoc.mpr (.inl hp')
  have old := h.mono kept m
  refine ⟨?_, fun i f' g hf hg => ?_, fun i f' s' hf hs' => ?_⟩
  · rw [Lifespan.snapshots_push, List.length_append, List.length_append, h.length]
    rfl
  · rcases getElem?_snoc.mp hg with hg | ⟨e, rfl⟩
    · rcases getElem?_snoc.mp hf with hf | ⟨e, -⟩
      · exact old.compared i f' g hf hg
      · have lt := (List.getElem?_eq_some_iff.mp hg).1
        omega
    · obtain rfl : i = n := by omega
      cases hf.symm.trans before
      exact ⟨differ, hd⟩
  · have length := h.length
    rw [Lifespan.snapshots_push] at hs'
    rcases getElem?_snoc.mp hf with hf | ⟨e, rfl⟩
    · have lt := (List.getElem?_eq_some_iff.mp hf).1
      rcases getElem?_snoc.mp hs' with hs' | ⟨e, -⟩
      · obtain ⟨m', hm, shows⟩ := old.shows i f' s' hf hs'
        refine ⟨m', hm, ?_⟩
        have same := old.changesBefore_eq (.refl b) [f] lt
        exact same ▸ shows
      · omega
    · rcases getElem?_snoc.mp hs' with hs' | ⟨-, rfl⟩
      · have lt := (List.getElem?_eq_some_iff.mp hs').1
        omega
      · refine ⟨m, getElem?_snoc.mpr (.inr ⟨by omega, rfl⟩), ?_⟩
        have shows := Snapshot.shows_ofFragment hs
        rw [h.changes_push kept hn hp' hd] at shows
        rw [e, hn]
        exact shows

theorem tells_start {f : Fragment} {s : Snapshot}
    (hs : Snapshot.ofFragment f m.ordinal 0 = .ok s) :
    Tells (ms ++ [m]) b ms.length [f] (.start s) := by
  refine ⟨rfl, fun i f' g hf hg => ?_, fun i f' s' hf hs' => ?_⟩
  · cases hg
  · cases i with
    | zero =>
      cases hf
      cases hs'
      exact ⟨m, getElem?_snoc.mpr (.inr ⟨rfl, rfl⟩), Snapshot.shows_ofFragment hs⟩
    | succ i => cases hf

end Grow

/-! ### The invariant of a run -/

/-- What a tracker holds after a run: a lifespan for every chain, to which the last
targets lead. -/
structure Story (ms : List Matching) (a : Archive) (t : Tracker)
    (chains : List (Nat × List Fragment)) : Prop where
  consistent : Consistent ms
  sound : t.Sound
  all : Chains ms chains
  length : chains.length = t.lifespans.length
  tells : ∀ (n : Nat) (x : Nat × List Fragment) (l : Lifespan), chains[n]? = some x →
    t.lifespans[n]? = some l → Tells ms a x.1 x.2 l
  led : ∀ h n, t.tracked.lookup h = some n → ∃ (x : Nat × List Fragment) (f : Fragment),
    chains[n]? = some x ∧ x.2.getLast? = some f ∧ f.handle = h ∧ x.1 + x.2.length = ms.length
  tracked : ∀ k f, k + 1 = ms.length → Occurs ms k f → ∃ n, t.tracked.lookup f.handle = some n

/-- The chains after one more matching. -/
def extended (count : Nat) (done : List (Fragment × Outcome))
    (chains : List (Nat × List Fragment)) : List (Nat × List Fragment) :=
  chains.mapIdx (fun n x => (x.1, x.2 ++ (Plan.continuing n done).map Prod.fst)) ++
    (Plan.beginning done).map fun x => (count, [x.1])

/-- A run that is about to take in one more matching, and the outcomes of its targets. -/
structure Advance (ms : List Matching) (m : Matching) (a b : Archive) (t : Tracker)
    (chains : List (Nat × List Fragment)) (done : List (Fragment × Outcome)) : Prop where
  story : Story ms a t chains
  consistent : Consistent (ms ++ [m])
  kept : a.Within b
  targets : m.targets = done.map (some ·.1)
  yields : ∀ x ∈ done, t.Yields m b x.1 x.2

namespace Advance

variable {ms : List Matching} {m : Matching} {a b : Archive} {t : Tracker}
  {chains : List (Nat × List Fragment)} {done : List (Fragment × Outcome)}

theorem mapped (h : Advance ms m a b t chains done) : m.Mapped :=
  h.consistent.mapped m (List.mem_append_right _ List.mem_cons_self)

theorem mem_targets (h : Advance ms m a b t chains done) {f : Fragment} :
    some f ∈ m.targets ↔ ∃ o, (f, o) ∈ done := by
  rw [h.targets, List.mem_map]
  constructor
  · rintro ⟨⟨g, o⟩, hx, ⟨⟩⟩
    exact ⟨o, hx⟩
  · rintro ⟨o, hx⟩
    exact ⟨_, hx, rfl⟩

theorem nodup (h : Advance ms m a b t chains done) : (done.map (·.1.handle)).Nodup := by
  obtain ⟨fs, targets, nodup⟩ := h.mapped.targets
  exact (Plan.fragments_of_targets (targets.symm.trans h.targets) nodup).2

theorem continuing_cases (h : Advance ms m a b t chains done) (n : Nat) :
    (Plan.continuing n done = [] ∧ ∀ f s, (f, .continues n s) ∉ done) ∨
      ∃ f s, Plan.continuing n done = [(f, s)] ∧ (f, .continues n s) ∈ done :=
  h.story.sound.continuing_cases h.mapped.made.wellFormed h.yields h.nodup n

/-- The tracker that the step leaves behind. -/
def next (t : Tracker) (done : List (Fragment × Outcome)) : Tracker :=
  t.carriedOut (Plan.ofOutcomes t.lifespans.length done)

theorem lifespans_next :
    (next t done).lifespans = (Plan.updatesOf done).foldl push
      (t.lifespans ++ (Plan.beginning done).map fun x => .start x.2) :=
  t.lifespans_carriedOut done

/-- Every chain after the step is an old one as it was, an old one made longer by one
target, or a new one; its lifespan accordingly. -/
theorem place_cases (h : Advance ms m a b t chains done) {n : Nat} {y : Nat × List Fragment}
    (hy : (extended ms.length done chains)[n]? = some y) :
    (chains[n]? = some y ∧ (next t done).lifespans[n]? = t.lifespans[n]? ∧
      ∀ f s, (f, .continues n s) ∉ done) ∨
    (∃ x f s, chains[n]? = some x ∧ y = (x.1, x.2 ++ [f]) ∧ (f, .continues n s) ∈ done ∧
      (next t done).lifespans[n]? = t.lifespans[n]?.map (·.push s)) ∨
    (∃ f s, chains.length ≤ n ∧ (Plan.beginning done)[n - chains.length]? = some (f, s) ∧
      y = (ms.length, [f]) ∧ (next t done).lifespans[n]? = some (.start s)) := by
  rw [lifespans_next, getElem?_foldl_push]
  unfold extended at hy
  by_cases lt : n < chains.length
  · have lt' : n < t.lifespans.length := by rw [← h.story.length]; exact lt
    rw [List.getElem?_append_left (by rwa [List.length_mapIdx]), List.getElem?_mapIdx] at hy
    rw [List.getElem?_append_left lt']
    obtain ⟨x, hx, rfl⟩ := Option.map_eq_some_iff.mp hy
    rcases h.continuing_cases n with ⟨none, unmoved⟩ | ⟨f, s, one, hf⟩
    · refine .inl ⟨?_, ?_, unmoved⟩
      · rw [hx, none]
        simp
      · rw [none]
        cases t.lifespans[n]? <;> simp
    · refine .inr (.inl ⟨x, f, s, hx, ?_, hf, ?_⟩)
      · rw [one]
        rfl
      · rw [one]
        rfl
  · have le : chains.length ≤ n := Nat.le_of_not_lt lt
    have length := h.story.length
    rw [List.getElem?_append_right (by rwa [List.length_mapIdx]), List.length_mapIdx,
      List.getElem?_map] at hy
    rw [List.getElem?_append_right (by omega), ← length, List.getElem?_map]
    obtain ⟨⟨f, s⟩, hx, rfl⟩ := Option.map_eq_some_iff.mp hy
    refine .inr (.inr ⟨f, s, le, hx, rfl, ?_⟩)
    have none : Plan.continuing n done = [] := by
      refine List.eq_nil_iff_forall_not_mem.mpr fun ⟨g, s'⟩ hg => ?_
      have inside := h.story.sound.lt_of_continues h.yields (Plan.mem_continuing.mp hg) rfl
      omega
    rw [hx, none]
    rfl

/-- A target that continues a lifespan is linked from the last fragment of its chain. -/
theorem led_back (h : Advance ms m a b t chains done) {f : Fragment} {n : Nat} {s : Snapshot}
    (hf : (f, .continues n s) ∈ done) :
    ∃ x l p differ, chains[n]? = some x ∧ t.lifespans[n]? = some l ∧ x.2.getLast? = some p ∧
      x.1 + x.2.length = ms.length ∧ m.predecessor f = some p ∧
        (contentsDiffer p f).Settled b differ ∧
        Snapshot.ofFragment f m.ordinal (if differ then l.changes + 1 else l.changes) = .ok s := by
  obtain ⟨p, l, differ, hp, hfind, hd, hs⟩ := h.yields _ hf
  obtain ⟨place, hl⟩ := find_eq_some.mp hfind
  obtain ⟨x, p', hx, last, e, len⟩ := h.story.led _ _ place
  have chain := h.story.all.chain x (List.mem_of_getElem? hx)
  have occurs := chain.stands _ p' (by rw [← List.getLast?_eq_getElem?]; exact last)
  obtain ⟨link, -, -, source⟩ := Matching.link_of_predecessor hp
  have same : p' = p := by
    refine h.consistent.byHandle p' p ?_ ?_ e
    · rw [List.flatMap_append]
      exact List.mem_append_left _ occurs.mem
    · refine List.mem_flatMap.mpr ⟨m, by simp, List.mem_append_left _ ?_⟩
      exact List.mem_of_getElem? source
  exact ⟨x, l, p, differ, hx, hl, same ▸ last, len, hp, hd, hs⟩

/-- A target that is linked from a target of the last step continues its lifespan. -/
theorem continues_of_predecessor (h : Advance ms m a b t chains done) {f p : Fragment} {k : Nat}
    (hf : some f ∈ m.targets) (hp : m.predecessor f = some p) (occurs : Occurs ms k p)
    (e : k + 1 = ms.length) : ∃ n s, (f, .continues n s) ∈ done := by
  obtain ⟨o, ho⟩ := h.mem_targets.mp hf
  cases o with
  | continues n s => exact ⟨n, s, ho⟩
  | begins s =>
    obtain ⟨n, hn⟩ := h.story.tracked k p e occurs
    have inside := h.story.sound.inside _ _ hn
    have found : t.find p = some (n, t.lifespans[n]) :=
      find_eq_some.mpr ⟨hn, List.getElem?_eq_getElem inside⟩
    have none := (h.yields _ ho).1
    rw [hp, Option.bind_some, found] at none
    cases none

theorem outcome_unique (h : Advance ms m a b t chains done) {f : Fragment} {o o' : Outcome}
    (ho : (f, o) ∈ done) (ho' : (f, o') ∈ done) : o = o' :=
  (h.yields _ ho).unique (h.yields _ ho')

theorem chain_extended (h : Advance ms m a b t chains done) :
    ∀ y ∈ extended ms.length done chains, IsChain (ms ++ [m]) y.1 y.2 := by
  intro y hy
  obtain ⟨n, hn⟩ := List.mem_iff_getElem?.mp hy
  rcases h.place_cases hn with ⟨hx, -, unmoved⟩ | ⟨x, f, s, hx, rfl, hf, -⟩ |
    ⟨f, s, -, hf, rfl, -⟩
  · have chain := h.story.all.chain y (List.mem_of_getElem? hx)
    apply chain.keep
    intro i f g hf e hg pred
    obtain ⟨n', s, hs⟩ := h.continues_of_predecessor hg pred (chain.stands i f hf) e
    obtain ⟨x, l, p, differ, hx', -, last, len, hp, -⟩ := h.led_back hs
    cases pred.symm.trans hp
    rw [List.getLast?_eq_getElem?] at last
    -- the fragment that is continued ends one chain only
    have pos := (List.getElem?_eq_some_iff.mp last).1
    obtain ⟨rfl, -⟩ := h.story.all.unique h.story.consistent hx hx' _ _ hf last (by omega)
    exact unmoved g s hs
  · obtain ⟨x', l, p, differ, hx', -, last, len, hp, -⟩ := h.led_back hf
    cases hx.symm.trans hx'
    have chain := h.story.all.chain x (List.mem_of_getElem? hx)
    exact chain.grow last len (h.mem_targets.mpr ⟨_, hf⟩) hp
  · have begins := Plan.mem_beginning.mp (List.mem_of_getElem? hf)
    have target := h.mem_targets.mpr ⟨_, begins⟩
    apply IsChain.new target
    intro k p e occurs hp
    obtain ⟨n', s', hs⟩ := h.continues_of_predecessor target hp occurs e
    cases h.outcome_unique begins hs

/-- A chain of before is still there, at its place, if perhaps longer. -/
theorem getElem?_extended (count : Nat) {n : Nat} {x : Nat × List Fragment}
    (hx : chains[n]? = some x) :
    (extended count done chains)[n]? =
      some (x.1, x.2 ++ (Plan.continuing n done).map Prod.fst) := by
  unfold extended
  rw [List.getElem?_append_left (by
    rw [List.length_mapIdx]
    exact (List.getElem?_eq_some_iff.mp hx).1), List.getElem?_mapIdx, hx]
  rfl

/-- A chain that begins comes behind those of before. -/
theorem getElem?_extended_new (count : Nat) {n : Nat} (le : chains.length ≤ n) {f : Fragment}
    {s : Snapshot} (hf : (Plan.beginning done)[n - chains.length]? = some (f, s)) :
    (extended count done chains)[n]? = some (count, [f]) := by
  unfold extended
  rw [List.getElem?_append_right (by rwa [List.length_mapIdx]), List.length_mapIdx,
    List.getElem?_map, hf]
  rfl

theorem precedes_grow {x y : Nat × List Fragment} (hx : x.2 ≠ []) (hy : y.2 ≠ [])
    (h : Precedes ms x y) (m : Matching) (fs gs : List Fragment) :
    Precedes (ms ++ [m]) (x.1, x.2 ++ fs) (y.1, y.2 ++ gs) := by
  rcases h with lt | ⟨e, m', i, j, f, g, hm, hf, hg, hi, hj, lt⟩
  · exact .inl lt
  · refine .inr ⟨e, m', i, j, f, g, getElem?_snoc.mpr (.inl hm), ?_, ?_, hi, hj, lt⟩
    · rw [List.getElem?_append_left (List.length_pos_iff.mpr hx), hf]
    · rw [List.getElem?_append_left (List.length_pos_iff.mpr hy), hg]

/-- The targets that begin a chain come in the order of the targets. -/
theorem pairwise_beginning (h : Advance ms m a b t chains done) :
    (Plan.beginning done).Pairwise fun x y => ∃ i j : Nat, m.targets[i]? = some (some x.1) ∧
      m.targets[j]? = some (some y.1) ∧ i < j := by
  have all : (done.map Prod.fst).Pairwise fun f g => ∃ i j : Nat,
      m.targets[i]? = some (some f) ∧ m.targets[j]? = some (some g) ∧ i < j := by
    refine List.pairwise_iff_getElem.mpr fun i j hi hj lt => ⟨i, j, ?_, ?_, lt⟩
    · rw [h.targets, List.getElem?_map, List.getElem_map,
        List.getElem?_eq_getElem (by simpa using hi)]
      rfl
    · rw [h.targets, List.getElem?_map, List.getElem_map,
        List.getElem?_eq_getElem (by simpa using hj)]
      rfl
  have part := all.sublist (Plan.beginning_sublist done)
  rw [List.pairwise_map] at part
  exact part

theorem ordered_extended (h : Advance ms m a b t chains done) :
    (extended ms.length done chains).Pairwise (Precedes (ms ++ [m])) := by
  have nonempty : ∀ x ∈ chains, x.2 ≠ [] := fun x hx => (h.story.all.chain x hx).nonempty
  refine List.pairwise_append.mpr ⟨?_, ?_, ?_⟩
  · apply List.pairwise_iff_getElem.mpr
    intro i j hi hj lt
    rw [List.length_mapIdx] at hi hj
    rw [List.getElem_mapIdx, List.getElem_mapIdx]
    exact precedes_grow (nonempty _ (List.getElem_mem hi)) (nonempty _ (List.getElem_mem hj))
      (List.pairwise_iff_getElem.mp h.story.all.ordered i j hi hj lt) m _ _
  · rw [List.pairwise_map]
    refine h.pairwise_beginning.imp fun {x y} before => ?_
    obtain ⟨i, j, hi, hj, lt⟩ := before
    exact .inr ⟨rfl, m, i, j, x.1, y.1, getElem?_snoc.mpr (.inr ⟨rfl, rfl⟩), rfl, rfl, hi, hj, lt⟩
  · intro x hx y hy
    obtain ⟨i, hi, rfl⟩ := List.mem_mapIdx.mp hx
    obtain ⟨z, -, rfl⟩ := List.mem_map.mp hy
    have chain := h.story.all.chain _ (List.getElem_mem hi)
    have le := chain.length_le
    have pos := List.length_pos_iff.mpr chain.nonempty
    exact .inl (by dsimp only; omega)

theorem covers_extended (h : Advance ms m a b t chains done) (k : Nat) (f : Fragment)
    (occurs : Occurs (ms ++ [m]) k f) :
    ∃ y ∈ extended ms.length done chains, ∃ i, y.2[i]? = some f ∧ y.1 + i = k := by
  rcases occurs_snoc.mp occurs with old | ⟨rfl, target⟩
  · obtain ⟨x, hx, i, hi, e⟩ := h.story.all.covers k f old
    obtain ⟨n, hn⟩ := List.mem_iff_getElem?.mp hx
    refine ⟨_, List.mem_of_getElem? (getElem?_extended ms.length hn), i, ?_, e⟩
    rw [List.getElem?_append_left (List.getElem?_eq_some_iff.mp hi).1, hi]
  · obtain ⟨o, ho⟩ := h.mem_targets.mp target
    cases o with
    | continues n s =>
      obtain ⟨x, l, p, differ, hx, -, -, len, -⟩ := h.led_back ho
      refine ⟨_, List.mem_of_getElem? (getElem?_extended ms.length hx), x.2.length, ?_, len⟩
      rcases h.continuing_cases n with ⟨-, none⟩ | ⟨g, s', one, -⟩
      · exact absurd ho (none f s)
      · have mem := Plan.mem_continuing.mpr ho
        rw [one, List.mem_singleton] at mem
        cases mem
        rw [one]
        exact List.getElem?_concat_length
    | begins s =>
      obtain ⟨i, hi⟩ := List.mem_iff_getElem?.mp (Plan.mem_beginning.mpr ho)
      have place : (Plan.beginning done)[chains.length + i - chains.length]? = some (f, s) := by
        rw [Nat.add_sub_cancel_left, hi]
      exact ⟨_, List.mem_of_getElem?
        (getElem?_extended_new ms.length (Nat.le_add_right _ i) place), 0, rfl, rfl⟩

theorem led_extended (h : Advance ms m a b t chains done) {handle n : Nat}
    (hl : (next t done).tracked.lookup handle = some n) :
    ∃ (y : Nat × List Fragment) (f : Fragment), (extended ms.length done chains)[n]? = some y ∧
      y.2.getLast? = some f ∧ f.handle = handle ∧ y.1 + y.2.length = (ms ++ [m]).length := by
  rw [List.length_append, List.length_singleton]
  rcases Plan.led_of_lookup hl with ⟨f, s, hf, e⟩ | ⟨le, f, s, hf, e⟩
  · obtain ⟨x, l, p, differ, hx, -, -, len, -⟩ := h.led_back hf
    rcases h.continuing_cases n with ⟨-, none⟩ | ⟨g, s', one, -⟩
    · exact absurd hf (none f s)
    · have mem := Plan.mem_continuing.mpr hf
      rw [one, List.mem_singleton] at mem
      cases mem
      refine ⟨_, f, getElem?_extended ms.length hx, ?_, e, ?_⟩
      · rw [one]
        exact List.getLast?_concat
      · rw [one, List.length_append, List.map_singleton, List.length_singleton]
        omega
  · rw [← h.story.length] at le hf
    exact ⟨_, f, getElem?_extended_new ms.length le hf, rfl, e, rfl⟩

theorem tells_extended (h : Advance ms m a b t chains done) {n : Nat} {y : Nat × List Fragment}
    {l : Lifespan} (hy : (extended ms.length done chains)[n]? = some y)
    (hl : (next t done).lifespans[n]? = some l) : Tells (ms ++ [m]) b y.1 y.2 l := by
  rcases h.place_cases hy with ⟨hx, same, -⟩ | ⟨x, f, s, hx, rfl, hf, grown⟩ |
    ⟨f, s, -, hf, rfl, new⟩
  · exact (h.story.tells n y l hx (same ▸ hl)).mono h.kept m
  · obtain ⟨x', l', p, differ, hx', hl', last, len, -, hd, hs⟩ := h.led_back hf
    cases hx.symm.trans hx'
    rw [grown, hl'] at hl
    cases hl
    exact (h.story.tells n x l' hx hl').push h.kept len last hd hs
  · cases new.symm.trans hl
    exact tells_start (h.yields _ (Plan.mem_beginning.mp (List.mem_of_getElem? hf))).2

theorem story_next (h : Advance ms m a b t chains done) :
    Story (ms ++ [m]) b (next t done) (extended ms.length done chains) where
  consistent := h.consistent
  sound := sound_carriedOut h.story.sound h.mapped.made.wellFormed h.yields
  all := ⟨h.chain_extended, h.ordered_extended, h.covers_extended⟩
  length := by
    rw [lifespans_next, length_foldl_push]
    unfold extended
    rw [List.length_append, List.length_append, List.length_mapIdx, List.length_map,
      List.length_map, h.story.length]
  tells _ _ _ := h.tells_extended
  led _ _ := h.led_extended
  tracked k f e occurs := by
    rw [List.length_append, List.length_singleton] at e
    rcases occurs_snoc.mp occurs with old | ⟨-, target⟩
    · have lt := old.lt
      omega
    · obtain ⟨o, ho⟩ := h.mem_targets.mp target
      exact Plan.exists_lookup ho

end Advance

/-! ### Lifespans that nothing leads to -/

section Frozen

variable {m : Matching} {b : Archive} {t : Tracker} {done : List (Fragment × Outcome)} {n : Nat}

theorem continuing_eq_nil (yields : ∀ x ∈ done, t.Yields m b x.1 x.2)
    (unled : ∀ h, t.tracked.lookup h ≠ some n) : Plan.continuing n done = [] := by
  refine List.eq_nil_iff_forall_not_mem.mpr fun ⟨f, s⟩ hf => ?_
  obtain ⟨p, l, -, -, hfind, -⟩ := yields _ (Plan.mem_continuing.mp hf)
  exact unled _ (find_eq_some.mp hfind).1

/-- A lifespan that nothing leads to stays as it is, and nothing leads to it later. -/
theorem frozen_step (yields : ∀ x ∈ done, t.Yields m b x.1 x.2) (lt : n < t.lifespans.length)
    (unled : ∀ h, t.tracked.lookup h ≠ some n) :
    (Advance.next t done).lifespans[n]? = t.lifespans[n]? ∧
      ∀ h, (Advance.next t done).tracked.lookup h ≠ some n := by
  have none := continuing_eq_nil yields unled
  refine ⟨?_, fun h hl => ?_⟩
  · rw [Advance.lifespans_next, getElem?_foldl_push, none, List.getElem?_append_left lt,
      List.getElem?_eq_getElem lt]
    simp
  · rcases Plan.led_of_lookup hl with ⟨f, s, hf, -⟩ | ⟨le, -⟩
    · have mem := Plan.mem_continuing.mpr hf
      rw [none] at mem
      cases mem
    · omega

theorem unled_of_same (lt : n < t.lifespans.length)
    (same : (Advance.next t done).lifespans[n]? = t.lifespans[n]?) (h : Nat) :
    (Advance.next t done).tracked.lookup h ≠ some n := by
  intro hl
  rw [Advance.lifespans_next, getElem?_foldl_push, List.getElem?_append_left lt,
    List.getElem?_eq_getElem lt] at same
  have later := congrArg Lifespan.later (Option.some.inj same)
  have none : Plan.continuing n done = [] := by simpa using later
  rcases Plan.led_of_lookup hl with ⟨f, s, hf, -⟩ | ⟨le, -⟩
  · have mem := Plan.mem_continuing.mpr hf
    rw [none] at mem
    cases mem
  · omega

end Frozen

/-! ### Runs -/

/-- A run of a tracker takes in matchings of steps, one after the other. What is kept in
the archive stays there in between. -/
inductive Run (t : Tracker) (a : Archive) : List Matching → Tracker → Archive → Prop
  | nil : Run t a [] t a
  | add {ms : List Matching} {m : Matching} {t' t'' : Tracker} {a' b c : Archive}
    (run : Run t a ms t' a') (kept : a'.Within b) (mapped : m.Mapped)
    (added : (t'.add m).run b = ((.ok (), t''), c)) : Run t a (ms ++ [m]) t'' c

theorem Run.sound {t t' : Tracker} {a b : Archive} {ms : List Matching} (run : Run t a ms t' b)
    (ht : t.Sound) : t'.Sound := by
  induction run with
  | nil => exact ht
  | add run kept mapped added ih =>
    obtain ⟨-, done, -, yields, rfl⟩ := ih.outcomes_of_add mapped.made added
    exact sound_carriedOut ih mapped.made.wellFormed yields

theorem Run.frozen {t t' : Tracker} {a b : Archive} {ms : List Matching} (run : Run t a ms t' b)
    (ht : t.Sound) {n : Nat} (lt : n < t.lifespans.length)
    (unled : ∀ h, t.tracked.lookup h ≠ some n) :
    t'.lifespans[n]? = t.lifespans[n]? ∧ ∀ h, t'.tracked.lookup h ≠ some n := by
  induction run with
  | nil => exact ⟨rfl, unled⟩
  | @add ms m t' t'' a' b c run kept mapped added ih =>
    obtain ⟨same, unled'⟩ := ih
    have lt' : n < t'.lifespans.length := by
      rw [List.getElem?_eq_getElem lt] at same
      exact (List.getElem?_eq_some_iff.mp same).1
    obtain ⟨-, done, -, yields, rfl⟩ := (run.sound ht).outcomes_of_add mapped.made added
    obtain ⟨again, unled''⟩ := frozen_step yields lt' unled'
    exact ⟨again.trans same, unled''⟩

theorem story_empty (a : Archive) : Story [] a empty [] := by
  have nothing : ∀ k f, ¬ Occurs [] k f := by
    rintro k f ⟨m, hm, -⟩
    cases hm
  refine ⟨⟨by simp, fun f g hf => ?_⟩, sound_empty,
    ⟨by simp, .nil, fun k f h => absurd h (nothing k f)⟩, rfl, fun n x l hx => ?_,
    fun h n hl => ?_, fun k f _ h => absurd h (nothing k f)⟩
  · cases hf
  · cases hx
  · cases hl

theorem Run.story {a b : Archive} {ms : List Matching} {t : Tracker} (run : Run empty a ms t b)
    (byHandle : Fragment.ByHandle (ms.flatMap fun m => m.sources ++ m.targets)) :
    ∃ chains, Story ms b t chains := by
  induction run with
  | nil => exact ⟨[], story_empty a⟩
  | @add ms m t' t'' a' b c run kept mapped added ih =>
    have before := byHandle
    rw [List.flatMap_append] at before
    obtain ⟨chains, story⟩ := ih fun f g hf hg =>
      before f g (List.mem_append_left _ hf) (List.mem_append_left _ hg)
    obtain ⟨within, done, targets, yields, rfl⟩ := story.sound.outcomes_of_add mapped.made added
    have consistent : Consistent (ms ++ [m]) := by
      refine ⟨fun m' hm => ?_, byHandle⟩
      rcases List.mem_append.mp hm with hm | hm
      · exact story.consistent.mapped m' hm
      · rwa [List.mem_singleton.mp hm]
    have advance : Advance ms m a' c t' chains done :=
      ⟨story, consistent, kept.trans within, targets, yields⟩
    exact ⟨_, advance.story_next⟩

/-- The last fragment of a chain and the last snapshot of its lifespan. -/
theorem Story.last {ms : List Matching} {a : Archive} {t : Tracker}
    {chains : List (Nat × List Fragment)} (h : Story ms a t chains) {f : Fragment} {n : Nat}
    (hl : t.tracked.lookup f.handle = some n) :
    ∃ l x g m, t.find f = some (n, l) ∧ chains[n]? = some x ∧ x.2.getLast? = some g ∧
      g.handle = f.handle ∧ x.1 + x.2.length = ms.length ∧ ms.getLast? = some m ∧
        l.last.Shows g m.ordinal (changesBefore a x.2 (x.2.length - 1)) := by
  obtain ⟨x, g, hx, last, e, len⟩ := h.led _ _ hl
  have inside := h.sound.inside _ _ hl
  have tells := h.tells n x _ hx (List.getElem?_eq_getElem inside)
  have pos := List.length_pos_iff.mpr (h.all.chain x (List.mem_of_getElem? hx)).nonempty
  have last_snapshot := getElem?_last t.lifespans[n]
  rw [tells.length] at last_snapshot
  obtain ⟨m, hm, shows⟩ := tells.shows _ g _ (List.getLast?_eq_getElem? ▸ last) last_snapshot
  refine ⟨t.lifespans[n], x, g, m, find_eq_some.mpr ⟨hl, List.getElem?_eq_getElem inside⟩, hx,
    last, e, len, ?_, shows⟩
  rw [List.getLast?_eq_getElem?, ← hm]
  congr 1
  omega

section Results

variable {ms : List Matching} {a : Archive} {t : Tracker} {chains : List (Nat × List Fragment)}

/-- Every target of a matching is at one place of one chain. -/
theorem Story.exists_place (h : Story ms a t chains) {k : Nat} {f : Fragment}
    (occurs : Occurs ms k f) : ∃! place : Nat × Nat, ∃ x, chains[place.1]? = some x ∧
      x.2[place.2]? = some f ∧ x.1 + place.2 = k := by
  obtain ⟨x, hx, i, hi, e⟩ := h.all.covers k f occurs
  obtain ⟨n, hn⟩ := List.mem_iff_getElem?.mp hx
  refine ⟨(n, i), ⟨x, hn, hi, e⟩, ?_⟩
  rintro ⟨n', i'⟩ ⟨y, hy, hi', e'⟩
  obtain ⟨rfl, rfl⟩ := h.all.unique h.consistent hy hn i' i hi' hi (e'.trans e.symm)
  rfl

theorem Story.isSome_find (h : Story ms a t chains) {f : Fragment} :
    (t.find f).isSome ↔ ∃ k g, k + 1 = ms.length ∧ Occurs ms k g ∧ g.handle = f.handle := by
  constructor
  · intro found
    obtain ⟨⟨n, l⟩, hf⟩ := Option.isSome_iff_exists.mp found
    obtain ⟨l, x, g, m, -, hx, last, e, len, -⟩ := h.last (find_eq_some.mp hf).1
    have chain := h.all.chain x (List.mem_of_getElem? hx)
    have pos := List.length_pos_iff.mpr chain.nonempty
    rw [List.getLast?_eq_getElem?] at last
    exact ⟨_, g, by omega, chain.stands _ g last, e⟩
  · rintro ⟨k, g, e, occurs, same⟩
    obtain ⟨n, hn⟩ := h.tracked k g e occurs
    obtain ⟨l, x, g', m, hf, -⟩ := h.last (same ▸ hn)
    rw [hf]
    rfl

theorem Run.unchanged {ms₂ : List Matching} {t₁ t₂ : Tracker} {b₁ a₂ : Archive} {m : Matching}
    (sound : t₁.Sound) (mapped : m.Mapped) (added : (t₁.add m).run b₁ = ((.ok (), t₂), a₂))
    (later : Run t₂ a₂ ms₂ t a) {n : Nat} {l : Lifespan} (hl : t₁.lifespans[n]? = some l)
    (same : t₂.lifespans[n]? = some l) : t.lifespans[n]? = some l := by
  have lt := (List.getElem?_eq_some_iff.mp hl).1
  obtain ⟨-, done, -, yields, rfl⟩ := sound.outcomes_of_add mapped.made added
  have unled := unled_of_same lt (same.trans hl.symm)
  have frozen := later.frozen (sound_carriedOut sound mapped.made.wellFormed yields)
    (List.getElem?_eq_some_iff.mp same).1 unled
  exact frozen.1.trans same

end Results

end Tracker
end Lineage
