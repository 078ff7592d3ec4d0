/-
# Places and predecessors

A matching that was put together link by link, or made by a step, is well formed:
no place has two links, and links stand at the places where the fragments at their
ends are found. So two fragments with one predecessor are one fragment, and there are
as many links as targets with a predecessor. The mirror of a well-formed matching is
well formed, so what is shown for one side need not be shown again for the other.

Key definitions: `Fragment.ByHandle`, `Matching.Mapped`, `Matching.Made`,
`Matching.WellFormed`, `Matching.mirror`.
Key theorems: `Matching.Made.wellFormed`, `Matching.WellFormed.handle_eq_of_predecessor`,
`Matching.WellFormed.predecessor_of_link`, `Matching.WellFormed.length_links`.
-/
import Lineage.Proofs.Matching.Rules

namespace Lineage

/-! ### Fragments, each once -/

namespace Fragment

/-- Fragments that share a handle are one fragment. -/
def ByHandle (fs : List (Option Fragment)) : Prop :=
  ∀ f g, some f ∈ fs → some g ∈ fs → f.handle = g.handle → f = g

theorem handle_keepFirst : ∀ (seen : List Nat) (fs : List Fragment),
    (∀ f ∈ keepFirst seen fs, f.handle ∉ seen) ∧ ((keepFirst seen fs).map (·.handle)).Nodup
  | _, [] => by simp [keepFirst]
  | seen, f :: fs => by
    unfold keepFirst
    by_cases h : f.handle ∈ seen
    · rw [if_pos h]
      exact handle_keepFirst seen fs
    · rw [if_neg h]
      obtain ⟨unseen, nodup⟩ := handle_keepFirst (f.handle :: seen) fs
      refine ⟨fun g hg => ?_, ?_⟩
      · rcases List.mem_cons.mp hg with rfl | hg
        · exact h
        · exact fun hs => unseen g hg (List.mem_cons_of_mem _ hs)
      · rw [List.map_cons, List.nodup_cons]
        refine ⟨fun hm => ?_, nodup⟩
        obtain ⟨g, hg, e⟩ := List.mem_map.mp hm
        exact unseen g hg (e ▸ List.mem_cons_self)

theorem nodup_distinct (fs : List (Option Fragment)) : ((distinct fs).map (·.handle)).Nodup :=
  (handle_keepFirst [] _).2

theorem keepFirst_of_nodup : ∀ {seen : List Nat} {fs : List Fragment},
    (fs.map (·.handle)).Nodup → (∀ f ∈ fs, f.handle ∉ seen) → keepFirst seen fs = fs
  | _, [], _, _ => rfl
  | seen, f :: fs, nodup, unseen => by
    obtain ⟨new, nodup⟩ := List.nodup_cons.mp nodup
    have rest : ∀ g ∈ fs, g.handle ∉ f.handle :: seen := by
      intro g hg hs
      rcases List.mem_cons.mp hs with e | hs
      · exact new (List.mem_map.mpr ⟨g, hg, e⟩)
      · exact unseen g (List.mem_cons_of_mem f hg) hs
    unfold keepFirst
    rw [if_neg (unseen f List.mem_cons_self), keepFirst_of_nodup nodup rest]

theorem keepFirst_sublist : ∀ (seen : List Nat) (fs : List Fragment),
    (keepFirst seen fs).Sublist fs
  | _, [] => .slnil
  | seen, f :: fs => by
    unfold keepFirst
    by_cases h : f.handle ∈ seen
    · rw [if_pos h]
      exact (keepFirst_sublist seen fs).cons f
    · rw [if_neg h]
      exact (keepFirst_sublist (f.handle :: seen) fs).cons_cons f

theorem mem_of_mem_distinct {fs : List (Option Fragment)} {f : Fragment} (h : f ∈ distinct fs) :
    some f ∈ fs := by
  have mem := (keepFirst_sublist [] _).subset h
  obtain ⟨_, hf, rfl⟩ := List.mem_filterMap.mp mem
  exact hf

theorem distinct_of_nodup {fs : List Fragment} (nodup : (fs.map (·.handle)).Nodup) :
    distinct (fs.map some) = fs := by
  have all : (fs.map some).filterMap id = fs := by simp
  unfold distinct
  rw [all]
  exact keepFirst_of_nodup nodup fun _ _ => List.not_mem_nil

theorem byHandle_of_nodup {fs : List Fragment} (nodup : (fs.map (·.handle)).Nodup) :
    ByHandle (fs.map some) := by
  intro f g hf hg e
  rw [List.mem_map] at hf hg
  obtain ⟨f, hf, ⟨⟩⟩ := hf
  obtain ⟨g, hg, ⟨⟩⟩ := hg
  exact List.inj_on_of_nodup_map nodup hf hg e

end Fragment

/-- A link the other way round. -/
def Link.turned (l : Link) : Link :=
  ⟨l.target, l.source, l.kind⟩

namespace Matching

/-! ### Places -/

theorem getElem?_of_place {handle : Nat} : ∀ {fs : List (Option Fragment)} {k : Nat},
    place handle fs = some k → ∃ f, fs[k]? = some (some f) ∧ f.handle = handle
  | [], _, h => by cases h
  | f :: fs, k, h => by
    unfold place at h
    cases hp : place handle fs with
    | some i =>
      rw [hp] at h
      obtain ⟨g, hg, e⟩ := getElem?_of_place hp
      cases h
      exact ⟨g, hg, e⟩
    | none =>
      rw [hp] at h
      by_cases hf : f.map (·.handle) = some handle
      · simp only [if_pos hf] at h
        cases h
        obtain ⟨g, rfl, e⟩ := Option.map_eq_some_iff.mp hf
        exact ⟨g, rfl, e⟩
      · simp only [if_neg hf] at h
        cases h

/-- A fragment of a list has a place there, if perhaps a later one. -/
theorem exists_place : ∀ {fs : List (Option Fragment)} {f : Fragment},
    some f ∈ fs → ∃ k, place f.handle fs = some k
  | [], _, h => by cases h
  | g :: fs, f, h => by
    unfold place
    cases hp : place f.handle fs with
    | some i => exact ⟨i + 1, rfl⟩
    | none =>
      rcases List.mem_cons.mp h with rfl | h
      · exact ⟨0, by simp⟩
      · obtain ⟨i, hi⟩ := exists_place h
        rw [hp] at hi
        cases hi

theorem place_eq {fs : List Fragment} (nodup : (fs.map (·.handle)).Nodup) {k : Nat}
    {f : Fragment} (h : fs[k]? = some f) : place f.handle (fs.map some) = some k := by
  obtain ⟨i, hi⟩ := exists_place (List.mem_map_of_mem (List.mem_of_getElem? h))
  obtain ⟨g, hg, e⟩ := getElem?_of_place hi
  rw [List.getElem?_map] at hg
  obtain ⟨g', hg, same⟩ := Option.map_eq_some_iff.mp hg
  cases same
  have hk : (fs.map (·.handle))[k]? = some f.handle := by rw [List.getElem?_map, h]; rfl
  have hi' : (fs.map (·.handle))[i]? = some f.handle := by rw [List.getElem?_map, hg, ← e]; rfl
  rw [hi, List.getElem?_inj (List.getElem?_eq_some_iff.mp hi').1 nodup |>.mp (hi'.trans hk.symm)]

theorem eq_of_place_eq {fs : List Fragment} (nodup : (fs.map (·.handle)).Nodup) {f g : Fragment}
    (hf : f ∈ fs) (hg : g ∈ fs)
    (e : place f.handle (fs.map some) = place g.handle (fs.map some)) : f = g := by
  obtain ⟨k, hk⟩ := exists_place (List.mem_map_of_mem hf)
  obtain ⟨t, ht, same⟩ := getElem?_of_place hk
  obtain ⟨t', ht', same'⟩ := getElem?_of_place (e ▸ hk)
  cases ht.symm.trans ht'
  exact List.inj_on_of_nodup_map nodup hf hg (same.symm.trans same')

/-! ### Well-formed matchings -/

/-- The end of a link is found where the link has it. -/
def StandsAt (fs : List (Option Fragment)) (k : Nat) : Prop :=
  ∃ f, fs[k]? = some (some f) ∧ place f.handle fs = some k

/-- No place has two links, and links stand where the fragments at their ends are found. -/
structure WellFormed (m : Matching) : Prop where
  sources_once : (m.links.map Link.source).Nodup
  targets_once : (m.links.map Link.target).Nodup
  source_stands : ∀ l ∈ m.links, StandsAt m.sources l.source
  target_stands : ∀ l ∈ m.links, StandsAt m.targets l.target

/-- A matching that a step makes. -/
def Mapped (m : Matching) : Prop :=
  ∃ (matcher next : Matcher) (sources targets : List (Option Fragment)) (step : Step)
    (a b : Archive), (matcher.map sources targets step).run a = ((.ok m, next), b)

/-- How matchings come about: a new one has no links and gets them one by one, or a
step makes one. -/
inductive Made : Matching → Prop
  | new (ordinal : Int) {sources targets : List (Option Fragment)}
    (byHandle : Fragment.ByHandle (sources ++ targets)) : Made ⟨ordinal, sources, targets, []⟩
  | link {m m' : Matching} (made : Made m) (source target : Option Fragment) (kind : Link.Kind)
    (linked : m.link source target kind = .ok m') : Made m'
  | mapped {matcher next : Matcher} {sources targets : List (Option Fragment)} {step : Step}
    {a b : Archive} {m : Matching}
    (run : (matcher.map sources targets step).run a = ((.ok m, next), b)) : Made m

theorem Mapped.made {m : Matching} (h : m.Mapped) : m.Made := by
  obtain ⟨matcher, next, sources, targets, step, a, b, run⟩ := h
  exact .mapped run

theorem standsAt_map_some {fs : List Fragment} (nodup : (fs.map (·.handle)).Nodup) {k : Nat}
    {f : Fragment} (h : fs[k]? = some f) : StandsAt (fs.map some) k :=
  ⟨f, by rw [List.getElem?_map, h]; rfl, place_eq nodup h⟩

section Map

variable {matcher next : Matcher} {sources targets : List (Option Fragment)} {step : Step}
  {a b : Archive} {m : Matching}
  (h : (matcher.map sources targets step).run a = ((.ok m, next), b))
include h

theorem targets_of_map : m.targets = (Fragment.distinct targets).map some := by
  obtain ⟨carried, -, -, rfl⟩ := Matcher.carried_of_map h
  rfl

theorem sides_of_map : m.sources = (Fragment.distinct sources).map some ∧
    next.previous = Fragment.distinct targets := by
  obtain ⟨carried, -, -, rfl⟩ := Matcher.carried_of_map h
  exact ⟨rfl, congrArg Matcher.previous (Matcher.run_map_eq_ok.mp h).2⟩

theorem wellFormed_of_map : m.WellFormed := by
  have ruled := Matcher.ruled_of_map h
  have ends : ∀ l ∈ m.links, (∃ f, (Fragment.distinct sources)[l.source]? = some f) ∧
      ∃ t, (Fragment.distinct targets)[l.target]? = some t := by
    rintro ⟨i, j, kind⟩ hl
    cases kind with
    | signature =>
      obtain ⟨⟨f, t, hf, ht, -⟩, -⟩ := ruled.by_signature i j hl
      exact ⟨⟨f, hf⟩, t, ht⟩
    | position =>
      obtain ⟨-, ⟨f, t, -, hf, ht, -⟩, -⟩ := ruled.by_position i j hl
      exact ⟨⟨f, hf⟩, t, ht⟩
  refine ⟨ruled.sources_once, ruled.targets_once, fun l hl => ?_, fun l hl => ?_⟩
  · obtain ⟨⟨f, hf⟩, -⟩ := ends l hl
    rw [(sides_of_map h).1]
    exact standsAt_map_some (Fragment.nodup_distinct sources) hf
  · obtain ⟨-, t, ht⟩ := ends l hl
    rw [targets_of_map h]
    exact standsAt_map_some (Fragment.nodup_distinct targets) ht

end Map

theorem Mapped.targets {m : Matching} (h : m.Mapped) :
    ∃ fs : List Fragment, m.targets = fs.map some ∧ (fs.map (·.handle)).Nodup := by
  obtain ⟨matcher, next, sources, targets, step, a, b, run⟩ := h
  exact ⟨_, targets_of_map run, Fragment.nodup_distinct targets⟩

/-! ### The mirror -/

/-- A matching with its sides swapped. -/
def mirror (m : Matching) : Matching :=
  ⟨m.ordinal, m.targets, m.sources, m.links.map Link.turned⟩

theorem mirror_mirror (m : Matching) : m.mirror.mirror = m := by
  have links : (m.links.map Link.turned).map Link.turned = m.links := by
    rw [List.map_map]
    exact List.map_id m.links
  show Matching.mk m.ordinal m.sources m.targets ((m.links.map Link.turned).map Link.turned) = m
  rw [links]

theorem linkFrom_mirror (m : Matching) (j : Nat) :
    m.mirror.linkFrom j = (m.linkTo j).map Link.turned := by
  unfold linkFrom linkTo mirror
  rw [List.find?_map]
  rfl

theorem successor_mirror (m : Matching) (t : Fragment) :
    m.mirror.successor t = m.predecessor t := by
  unfold successor predecessor
  simp only [linkFrom_mirror, Option.bind_eq_bind, Option.bind_map]
  rfl

theorem predecessor_mirror (m : Matching) (f : Fragment) :
    m.mirror.predecessor f = m.successor f := by
  rw [← successor_mirror, mirror_mirror]

theorem WellFormed.mirror {m : Matching} (h : m.WellFormed) : m.mirror.WellFormed where
  sources_once := by
    show ((m.links.map Link.turned).map Link.source).Nodup
    rw [List.map_map]
    exact h.targets_once
  targets_once := by
    show ((m.links.map Link.turned).map Link.target).Nodup
    rw [List.map_map]
    exact h.sources_once
  source_stands l hl := by
    obtain ⟨l', hl', rfl⟩ := List.mem_map.mp hl
    exact h.target_stands l' hl'
  target_stands l hl := by
    obtain ⟨l', hl', rfl⟩ := List.mem_map.mp hl
    exact h.source_stands l' hl'

/-! ### Links one by one -/

theorem standsAt_of_placeOn {side : Side} {m : Matching} {f : Option Fragment} {k : Nat}
    (h : m.placeOn side f = .ok k) : StandsAt (m.fragments side) k := by
  unfold placeOn at h
  split at h
  · rename_i found
    cases h
    obtain ⟨f, rfl, found⟩ := Option.bind_eq_some_iff.mp found
    obtain ⟨g, hg, same⟩ := getElem?_of_place found
    exact ⟨g, hg, same ▸ found⟩
  · cases h

theorem placeOn_eq (side : Side) {m : Matching} {f : Fragment} {k : Nat}
    (h : place f.handle (m.fragments side) = some k) : m.placeOn side (some f) = .ok k := by
  rw [placeOn, Option.bind_some, h]

theorem linkFrom_eq_none {m : Matching} {i : Nat} :
    m.linkFrom i = none ↔ i ∉ m.links.map Link.source := by
  unfold linkFrom
  rw [List.find?_eq_none, List.mem_map]
  simp only [beq_iff_eq, not_exists, not_and]

theorem linkTo_eq_none {m : Matching} {j : Nat} :
    m.linkTo j = none ↔ j ∉ m.links.map Link.target := by
  have mirrored : m.mirror.links.map Link.source = m.links.map Link.target := List.map_map
  rw [← mirrored, ← linkFrom_eq_none, linkFrom_mirror, Option.map_eq_none_iff]

/-- A link that is added goes between two places that had none. -/
theorem link_eq_ok {m m' : Matching} {source target : Option Fragment} {kind : Link.Kind}
    (h : m.link source target kind = .ok m') :
    ∃ i j, m.placeOn .source source = .ok i ∧ m.placeOn .target target = .ok j ∧
      i ∉ m.links.map Link.source ∧ j ∉ m.links.map Link.target ∧
        m' = { m with links := m.links ++ [⟨i, j, kind⟩] } := by
  unfold link at h
  cases hs : m.placeOn .source source with
  | error e => rw [hs] at h; cases h
  | ok i =>
    cases ht : m.placeOn .target target with
    | error e => rw [hs, ht] at h; cases h
    | ok j =>
      rw [hs, ht] at h
      cases hf : m.linkFrom i with
      | some l =>
        simp only [bind, Except.bind, hf] at h
        cases h
      | none =>
        cases hj : m.linkTo j with
        | some l =>
          simp only [bind, Except.bind, hf, hj] at h
          cases h
        | none =>
          simp only [bind, Except.bind, hf, hj] at h
          exact ⟨i, j, rfl, rfl, linkFrom_eq_none.mp hf, linkTo_eq_none.mp hj,
            (Except.ok.inj h).symm⟩

theorem WellFormed.link {m m' : Matching} (h : m.WellFormed) {source target : Option Fragment}
    {kind : Link.Kind} (linked : m.link source target kind = .ok m') : m'.WellFormed := by
  obtain ⟨i, j, hi, hj, free_i, free_j, rfl⟩ := link_eq_ok linked
  refine ⟨?_, ?_, fun l hl => ?_, fun l hl => ?_⟩
  · rw [List.map_append, List.map_singleton]
    exact h.sources_once.append (List.nodup_singleton i) (by simpa using free_i)
  · rw [List.map_append, List.map_singleton]
    exact h.targets_once.append (List.nodup_singleton j) (by simpa using free_j)
  · rcases List.mem_append.mp hl with hl | hl
    · exact h.source_stands l hl
    · rw [List.mem_singleton.mp hl]
      exact standsAt_of_placeOn hi
  · rcases List.mem_append.mp hl with hl | hl
    · exact h.target_stands l hl
    · rw [List.mem_singleton.mp hl]
      exact standsAt_of_placeOn hj

/-- Matchings are well formed, however they came about. -/
theorem Made.wellFormed {m : Matching} (h : m.Made) : m.WellFormed := by
  induction h with
  | new ordinal _ => exact ⟨.nil, .nil, by simp, by simp⟩
  | link _ source target kind linked ih => exact ih.link linked
  | mapped answer => exact wellFormed_of_map answer

theorem Made.byHandle_targets {m : Matching} (h : m.Made) : Fragment.ByHandle m.targets := by
  induction h with
  | new ordinal byHandle =>
    exact fun f g hf hg => byHandle f g (List.mem_append_right _ hf) (List.mem_append_right _ hg)
  | link _ source target kind linked ih =>
    obtain ⟨i, j, -, -, -, -, rfl⟩ := link_eq_ok linked
    exact ih
  | mapped answer =>
    rw [targets_of_map answer]
    exact Fragment.byHandle_of_nodup (Fragment.nodup_distinct _)

/-! ### Predecessors -/

/-- A predecessor is one by a link. -/
theorem link_of_predecessor {m : Matching} {t p : Fragment} (h : m.predecessor t = some p) :
    ∃ l ∈ m.links, place t.handle m.targets = some l.target ∧
      m.sources[l.source]? = some (some p) := by
  unfold predecessor at h
  obtain ⟨j, hj, h⟩ := Option.bind_eq_some_iff.mp h
  obtain ⟨l, hl, h⟩ := Option.bind_eq_some_iff.mp h
  have target : l.target = j := by simpa using List.find?_some hl
  refine ⟨l, List.mem_of_find?_eq_some hl, hj.trans (congrArg some target.symm), ?_⟩
  exact Option.join_eq_some_iff.mp h

/-- Fragments with one predecessor are one fragment. -/
theorem WellFormed.handle_eq_of_predecessor {m : Matching} (h : m.WellFormed)
    {t t' p p' : Fragment} (hp : m.predecessor t = some p) (hp' : m.predecessor t' = some p')
    (e : p.handle = p'.handle) : t.handle = t'.handle := by
  obtain ⟨l, hl, ht, hs⟩ := link_of_predecessor hp
  obtain ⟨l', hl', ht', hs'⟩ := link_of_predecessor hp'
  obtain ⟨q, hq, stands⟩ := h.source_stands l hl
  obtain ⟨q', hq', stands'⟩ := h.source_stands l' hl'
  cases hs.symm.trans hq
  cases hs'.symm.trans hq'
  rw [e] at stands
  have source : l.source = l'.source := Option.some.inj (stands.symm.trans stands')
  cases List.inj_on_of_nodup_map h.sources_once hl hl' source
  obtain ⟨g, hg, same⟩ := getElem?_of_place ht
  obtain ⟨g', hg', same'⟩ := getElem?_of_place ht'
  cases hg.symm.trans hg'
  exact same.symm.trans same'

theorem WellFormed.linkFrom_eq {m : Matching} (h : m.WellFormed) {l : Link} (hl : l ∈ m.links) :
    m.linkFrom l.source = some l := by
  cases hf : m.linkFrom l.source with
  | none => exact absurd (List.mem_map_of_mem hl) (linkFrom_eq_none.mp hf)
  | some l' =>
    have source : l'.source = l.source := by simpa using List.find?_some hf
    have mem : l' ∈ m.links := List.mem_of_find?_eq_some hf
    rw [List.inj_on_of_nodup_map h.sources_once mem hl source]

theorem WellFormed.linkTo_eq {m : Matching} (h : m.WellFormed) {l : Link} (hl : l ∈ m.links) :
    m.linkTo l.target = some l := by
  have mirrored : m.mirror.linkFrom l.target = some l.turned :=
    h.mirror.linkFrom_eq (List.mem_map_of_mem hl)
  rw [linkFrom_mirror] at mirrored
  obtain ⟨l', hl', same⟩ := Option.map_eq_some_iff.mp mirrored
  exact hl'.trans (congrArg some (congrArg Link.turned same))

/-- The fragment at the one end of a link is the predecessor of that at the other end. -/
theorem WellFormed.predecessor_of_link {m : Matching} (h : m.WellFormed) {l : Link}
    (hl : l ∈ m.links) : ∃ p f, m.sources[l.source]? = some (some p) ∧
      m.targets[l.target]? = some (some f) ∧ m.predecessor f = some p ∧
        place f.handle m.targets = some l.target := by
  obtain ⟨p, hp, -⟩ := h.source_stands l hl
  obtain ⟨f, hf, stands⟩ := h.target_stands l hl
  have pred : m.predecessor f = m.sources[l.source]?.join := by
    unfold predecessor
    rw [stands, Option.bind_eq_bind, Option.bind_some, h.linkTo_eq hl]
    rfl
  exact ⟨p, f, hp, hf, by rw [pred, hp]; rfl, stands⟩

theorem WellFormed.successor_of_link {m : Matching} (h : m.WellFormed) {l : Link}
    (hl : l ∈ m.links) : ∃ p f, m.sources[l.source]? = some (some p) ∧
      m.targets[l.target]? = some (some f) ∧ m.successor p = some f := by
  obtain ⟨f, p, hf, hp, succ, -⟩ := h.mirror.predecessor_of_link (List.mem_map_of_mem hl)
  exact ⟨p, f, hp, hf, (m.predecessor_mirror p).symm.trans succ⟩

/-- There are as many links as targets with a predecessor. -/
theorem WellFormed.length_links {m : Matching} (h : m.WellFormed) {fs : List Fragment}
    (targets : m.targets = fs.map some) (nodup : (fs.map (·.handle)).Nodup) :
    m.links.length = fs.countP fun f => (m.predecessor f).isSome := by
  let linked := fs.filter fun f => (m.predecessor f).isSome
  have places : (m.links.map fun l => some l.target).Perm
      (linked.map fun f => place f.handle m.targets) := by
    have left : (m.links.map fun l => some l.target).Nodup := by
      have once := h.targets_once.map fun _ _ => Option.some.inj
      rwa [List.map_map] at once
    have right : (linked.map fun f => place f.handle m.targets).Nodup :=
      List.Nodup.map_on (fun f hf g hg => targets ▸ eq_of_place_eq nodup
        (List.mem_filter.mp hf).1 (List.mem_filter.mp hg).1) ((nodup.of_map _).filter _)
    refine (List.perm_ext_iff_of_nodup left right).mpr fun k => ?_
    rw [List.mem_map, List.mem_map]
    constructor
    · rintro ⟨l, hl, rfl⟩
      obtain ⟨p, f, -, hf, pred, stands⟩ := h.predecessor_of_link hl
      have target : some f ∈ fs.map some := targets ▸ List.mem_of_getElem? hf
      obtain ⟨_, hg, ⟨⟩⟩ := List.mem_map.mp target
      exact ⟨f, List.mem_filter.mpr ⟨hg, by rw [pred]; rfl⟩, stands⟩
    · rintro ⟨f, hf, rfl⟩
      obtain ⟨p, pred⟩ := Option.isSome_iff_exists.mp (List.mem_filter.mp hf).2
      obtain ⟨l, hl, stands, -⟩ := link_of_predecessor pred
      exact ⟨l, hl, stands.symm⟩
  have length := places.length_eq
  rw [List.length_map, List.length_map] at length
  rw [length, List.countP_eq_length_filter]

end Matching
end Lineage
