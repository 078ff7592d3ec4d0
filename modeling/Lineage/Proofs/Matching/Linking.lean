/-
# Links, one by one

A matching can be asked to link two fragments, any two and as often as one likes. What
it holds after any number of requests is the links of those that it granted, and all
that it tells of itself agrees with them: who follows whom, what the link was made by,
which fragments have a link and how many there are (`Tells`). A request is refused as a
misuse if one of its fragments is not known on its side, and otherwise as an
inconsistency if one of them has a link already (`Answers`).

A granted request adds its link to those before it (`Keeps.granted`), and so every run
of requests keeps the links of those that it granted (`Keeps.run`). Sources and targets
play the same part, so what is shown for sources holds for targets in the mirror
(`Matching.mirror`).

Key definitions: `Request`, `Matching.after`, `Matching.granted`, `Matching.Tells`,
`Matching.Answers`.
Key theorems: `Matching.Keeps.run`, `Matching.link_consistent`.
-/
import Lineage.Proofs.Matching.Succeeding

namespace Lineage

/-! ### Requests -/

/-- A request to link two fragments. Either of them may be missing. -/
structure Request where
  source : Option Fragment
  target : Option Fragment
  kind : Link.Kind

/-- A request is for a link between two fragments. -/
def Request.Joins (r : Request) (f t : Fragment) : Prop :=
  r.source.map (·.handle) = some f.handle ∧ r.target.map (·.handle) = some t.handle

/-- A request the other way round. -/
def Request.turned (r : Request) : Request :=
  ⟨r.target, r.source, r.kind⟩

/-- A fragment, if it is not missing, is one of a list. -/
def Fragment.IsAmong (fs : List Fragment) (f : Option Fragment) : Prop :=
  ∃ g ∈ fs, f.map (·.handle) = some g.handle

namespace Matching

/-- The matching after a request. One that is refused leaves it as it is. -/
def after (m : Matching) (r : Request) : Matching :=
  match m.link r.source r.target r.kind with
  | .ok m' => m'
  | .error _ => m

/-- The requests that are granted, out of requests made one after the other. -/
def granted : Matching → List Request → List Request
  | _, [] => []
  | m, r :: rs =>
    match m.link r.source r.target r.kind with
    | .ok m' => r :: granted m' rs
    | .error _ => granted m rs

/-- Requests joined two fragments by a link of some kind. -/
def Joined (done : List Request) (f t : Fragment) (kind : Link.Kind) : Prop :=
  ∃ r ∈ done, r.Joins f t ∧ r.kind = kind

/-- What a matching with the given sides tells of itself is the links of the requests in
`done`, and no others. -/
structure Tells (sources targets : List Fragment) (done : List Request) (m : Matching) :
    Prop where
  successor : ∀ f t, (m.successor f).map (·.handle) = some t.handle ↔ ∃ kind, Joined done f t kind
  predecessor : ∀ f t,
    (m.predecessor t).map (·.handle) = some f.handle ↔ ∃ kind, Joined done f t kind
  inverse : ∀ f t, (m.successor f).map (·.handle) = some t.handle ↔
    (m.predecessor t).map (·.handle) = some f.handle
  successor_mem : ∀ f t, m.successor f = some t → t ∈ targets
  predecessor_mem : ∀ f t, m.predecessor t = some f → f ∈ sources
  kind : ∀ f kind, m.kindOf f = some kind ↔ ∃ t, Joined done f t kind
  without_kind : ∀ f, m.kindOf f = none ↔ m.successor f = none
  sides : m.sources = sources.map some ∧ m.targets = targets.map some
  sources_where : ∀ linked,
    m.sourcesWhere linked = (sources.filter fun f => (m.successor f).isSome == linked).map some
  targets_where : ∀ linked,
    m.targetsWhere linked = (targets.filter fun t => (m.predecessor t).isSome == linked).map some
  pairs : m.pairs = sources.filterMap fun f => (m.successor f).map fun t => (f, t)
  length_done : m.links.length = done.length
  length_pairs : m.links.length = m.pairs.length
  length_sources : m.links.length = (m.sourcesWhere true).length
  length_targets : m.links.length = (m.targetsWhere true).length

/-- How a matching with the given sides answers a request. -/
structure Answers (sources targets : List Fragment) (m : Matching) (r : Request) : Prop where
  misuse : (∃ cause, m.link r.source r.target r.kind = .error (.misuse cause)) ↔
    ¬ Fragment.IsAmong sources r.source ∨ ¬ Fragment.IsAmong targets r.target
  inconsistent : (∃ cause, m.link r.source r.target r.kind = .error (.inconsistent cause)) ↔
    (Fragment.IsAmong sources r.source ∧ Fragment.IsAmong targets r.target) ∧
      ((r.source.bind m.successor).isSome ∨ (r.target.bind m.predecessor).isSome)
  granted : (∃ m', m.link r.source r.target r.kind = .ok m') ↔
    (Fragment.IsAmong sources r.source ∧ Fragment.IsAmong targets r.target) ∧
      ¬ ((r.source.bind m.successor).isSome ∨ (r.target.bind m.predecessor).isSome)
  refused : ∀ fault, m.link r.source r.target r.kind = .error fault → m.after r = m

theorem sourcesWhere_mirror (m : Matching) (linked : Bool) :
    m.mirror.sourcesWhere linked = m.targetsWhere linked := by
  unfold sourcesWhere targetsWhere
  simp only [linkFrom_mirror, Option.isSome_map]
  rfl

/-! ### What a well-formed matching tells -/

theorem exists_of_place {fs : List Fragment} {handle k : Nat}
    (h : place handle (fs.map some) = some k) : ∃ f, fs[k]? = some f ∧ f.handle = handle := by
  obtain ⟨g, hg, e⟩ := getElem?_of_place h
  rw [List.getElem?_map] at hg
  obtain ⟨f, hf, same⟩ := Option.map_eq_some_iff.mp hg
  cases same
  exact ⟨g, hf, e⟩

section WellFormed

variable {m : Matching} {sources targets : List Fragment}

theorem WellFormed.linkOf_eq_some (h : m.WellFormed) {f : Fragment} {l : Link} :
    (place f.handle m.sources).bind m.linkFrom = some l ↔
      l ∈ m.links ∧ place f.handle m.sources = some l.source := by
  rw [Option.bind_eq_some_iff]
  constructor
  · rintro ⟨i, hi, hl⟩
    have source : l.source = i := by simpa using List.find?_some hl
    exact ⟨List.mem_of_find?_eq_some hl, hi.trans (congrArg some source.symm)⟩
  · rintro ⟨hl, hi⟩
    exact ⟨l.source, hi, h.linkFrom_eq hl⟩

theorem successor_eq (m : Matching) (f : Fragment) :
    m.successor f =
      ((place f.handle m.sources).bind m.linkFrom).bind fun l => m.targets[l.target]?.join :=
  (Option.bind_assoc _ _ _).symm

theorem kindOf_eq (m : Matching) (f : Fragment) :
    m.kindOf f = ((place f.handle m.sources).bind m.linkFrom).map Link.kind := by
  rw [Option.map_eq_bind, Option.bind_assoc]
  rfl

theorem WellFormed.isSome_successor (h : m.WellFormed) (f : Fragment) :
    (m.successor f).isSome = ((place f.handle m.sources).bind m.linkFrom).isSome := by
  rw [successor_eq]
  cases hl : (place f.handle m.sources).bind m.linkFrom with
  | none => rfl
  | some l =>
    obtain ⟨t, ht, -⟩ := h.target_stands l (h.linkOf_eq_some.mp hl).1
    rw [Option.bind_some, ht]
    rfl

theorem place_of_mem_zipIdx (side : m.sources = sources.map some)
    (nodup : (sources.map (·.handle)).Nodup) {g : Option Fragment} {i : Nat}
    (h : (g, i) ∈ m.sources.zipIdx) : ∃ f, g = some f ∧ place f.handle m.sources = some i := by
  have at_i : (sources.map some)[i]? = some g := by
    rw [← side]
    exact List.mem_zipIdx_iff_getElem?.mp h
  rw [List.getElem?_map] at at_i
  obtain ⟨f, hf, rfl⟩ := Option.map_eq_some_iff.mp at_i
  exact ⟨f, rfl, by rw [side]; exact place_eq nodup hf⟩

/-- The sources with a link, or without one, in their order. -/
theorem WellFormed.sourcesWhere_eq (h : m.WellFormed) (side : m.sources = sources.map some)
    (nodup : (sources.map (·.handle)).Nodup) (linked : Bool) :
    m.sourcesWhere linked =
      (sources.filter fun f => (m.successor f).isSome == linked).map some := by
  let keeps (g : Option Fragment) : Bool := g.any fun f => (m.successor f).isSome == linked
  have same : ∀ x ∈ m.sources.zipIdx, ((m.linkFrom x.2).isSome == linked) = keeps x.1 := by
    rintro ⟨g, i⟩ hx
    obtain ⟨f, rfl, hi⟩ := place_of_mem_zipIdx side nodup hx
    show ((m.linkFrom i).isSome == linked) = ((m.successor f).isSome == linked)
    rw [h.isSome_successor, hi, Option.bind_some]
  calc m.sourcesWhere linked = (m.sources.zipIdx.filter (keeps ∘ Prod.fst)).map Prod.fst :=
        congrArg (List.map Prod.fst) (List.filter_congr same)
    _ = (m.sources.zipIdx.map Prod.fst).filter keeps := List.filter_map.symm
    _ = (sources.map some).filter keeps := by rw [List.zipIdx_map_fst, side]
    _ = (sources.filter fun f => (m.successor f).isSome == linked).map some := List.filter_map

theorem pairs_eq (side : m.sources = sources.map some)
    (nodup : (sources.map (·.handle)).Nodup) :
    m.pairs = sources.filterMap fun f => (m.successor f).map fun t => (f, t) := by
  let pair (g : Option Fragment) : Option (Fragment × Fragment) :=
    g.bind fun f => (m.successor f).map fun t => (f, t)
  have same : ∀ x ∈ m.sources.zipIdx, (do
      let l ← m.linkFrom x.2
      pure (← x.1, ← m.targets[l.target]?.join) : Option (Fragment × Fragment)) = pair x.1 := by
    rintro ⟨g, i⟩ hx
    obtain ⟨f, rfl, hi⟩ := place_of_mem_zipIdx side nodup hx
    show _ = (m.successor f).map fun t => (f, t)
    rw [successor_eq, hi, Option.bind_some]
    cases m.linkFrom i with
    | none => rfl
    | some l => exact Option.map_eq_bind.symm
  calc m.pairs = m.sources.zipIdx.filterMap (pair ∘ Prod.fst) := List.filterMap_congr same
    _ = (m.sources.zipIdx.map Prod.fst).filterMap pair := (List.filterMap_map).symm
    _ = (sources.map some).filterMap pair := by rw [List.zipIdx_map_fst, side]
    _ = sources.filterMap fun f => (m.successor f).map fun t => (f, t) := List.filterMap_map

end WellFormed

/-! ### Links and requests -/

/-- A link is the one that was asked for. -/
def Fits (sources targets : List Fragment) (l : Link) (r : Request) : Prop :=
  (∃ f t, sources[l.source]? = some f ∧ targets[l.target]? = some t ∧ r.Joins f t) ∧
    r.kind = l.kind

/-- A matching with the given sides holds the links that the requests in `done` asked
for, one for each. -/
structure Keeps (sources targets : List Fragment) (done : List Request) (m : Matching) :
    Prop where
  wellFormed : m.WellFormed
  sources_eq : m.sources = sources.map some
  targets_eq : m.targets = targets.map some
  requested : ∀ l ∈ m.links, ∃ r ∈ done, Fits sources targets l r
  made : ∀ r ∈ done, ∃ l ∈ m.links, Fits sources targets l r
  length_eq : m.links.length = done.length

section Keeps

variable {sources targets : List Fragment} {done : List Request} {m : Matching}

theorem joined_turned {f t : Fragment} {kind : Link.Kind} :
    Joined (done.map Request.turned) t f kind ↔ Joined done f t kind := by
  constructor
  · rintro ⟨_, hr, ⟨hs, ht⟩, hk⟩
    obtain ⟨r, hr', rfl⟩ := List.mem_map.mp hr
    exact ⟨r, hr', ⟨ht, hs⟩, hk⟩
  · rintro ⟨r, hr, ⟨hs, ht⟩, hk⟩
    exact ⟨r.turned, List.mem_map_of_mem hr, ⟨ht, hs⟩, hk⟩

theorem Fits.turned {l : Link} {r : Request} (h : Fits sources targets l r) :
    Fits targets sources l.turned r.turned := by
  obtain ⟨⟨f, t, hf, ht, hs, hg⟩, kind⟩ := h
  exact ⟨⟨t, f, ht, hf, hg, hs⟩, kind⟩

theorem Keeps.mirror (h : Keeps sources targets done m) :
    Keeps targets sources (done.map Request.turned) m.mirror where
  wellFormed := h.wellFormed.mirror
  sources_eq := h.targets_eq
  targets_eq := h.sources_eq
  requested l hl := by
    obtain ⟨l', hl', rfl⟩ := List.mem_map.mp hl
    obtain ⟨r, hr, fits⟩ := h.requested l' hl'
    exact ⟨r.turned, List.mem_map_of_mem hr, fits.turned⟩
  made r hr := by
    obtain ⟨r', hr', rfl⟩ := List.mem_map.mp hr
    obtain ⟨l, hl, fits⟩ := h.made r' hr'
    exact ⟨l.turned, List.mem_map_of_mem hl, fits.turned⟩
  length_eq := by
    show (m.links.map Link.turned).length = _
    rw [List.length_map, List.length_map, h.length_eq]

/-- The link of a source leads to its successor, and a request joined the two. -/
theorem Keeps.joined_of_link (h : Keeps sources targets done m) {f : Fragment} {l : Link}
    (hl : (place f.handle m.sources).bind m.linkFrom = some l) :
    ∃ t ∈ targets, m.successor f = some t ∧ Joined done f t l.kind := by
  obtain ⟨mem, hp⟩ := h.wellFormed.linkOf_eq_some.mp hl
  obtain ⟨r, hr, ⟨f', t, hf, ht, hs, hg⟩, kind⟩ := h.requested l mem
  have same : f'.handle = f.handle := by
    obtain ⟨g, hg, e⟩ := exists_of_place (h.sources_eq ▸ hp)
    cases hf.symm.trans hg
    exact e
  refine ⟨t, List.mem_of_getElem? ht, ?_, r, hr, ⟨same ▸ hs, hg⟩, kind⟩
  rw [successor_eq, hl, Option.bind_some, h.targets_eq, List.getElem?_map, ht]
  rfl

theorem Keeps.link_of_joined (h : Keeps sources targets done m)
    (nodup : (sources.map (·.handle)).Nodup) {f t : Fragment} {kind : Link.Kind}
    (joined : Joined done f t kind) :
    ∃ l, (place f.handle m.sources).bind m.linkFrom = some l ∧ l.kind = kind ∧
      (m.successor f).map (·.handle) = some t.handle := by
  obtain ⟨r, hr, ⟨hs, hg⟩, rfl⟩ := joined
  obtain ⟨l, hl, ⟨f', t', hf, ht, hs', hg'⟩, kind⟩ := h.made r hr
  have same : f'.handle = f.handle := Option.some.inj (hs'.symm.trans hs)
  have hp : place f.handle m.sources = some l.source := by
    rw [h.sources_eq, ← same]
    exact place_eq nodup hf
  have linked := h.wellFormed.linkOf_eq_some.mpr ⟨hl, hp⟩
  refine ⟨l, linked, kind.symm, ?_⟩
  rw [successor_eq, linked, Option.bind_some, h.targets_eq, List.getElem?_map, ht]
  exact hg'.symm.trans hg

theorem Keeps.successor_iff (h : Keeps sources targets done m)
    (nodup : (sources.map (·.handle)).Nodup) (f t : Fragment) :
    (m.successor f).map (·.handle) = some t.handle ↔ ∃ kind, Joined done f t kind := by
  constructor
  · intro hs
    obtain ⟨t', ht', e⟩ := Option.map_eq_some_iff.mp hs
    rw [successor_eq] at ht'
    obtain ⟨l, hl, -⟩ := Option.bind_eq_some_iff.mp ht'
    obtain ⟨t'', -, succ, r, hr, ⟨from_f, to_t⟩, -⟩ := h.joined_of_link hl
    rw [successor_eq, ht'] at succ
    cases succ
    exact ⟨_, r, hr, ⟨from_f, e ▸ to_t⟩, rfl⟩
  · rintro ⟨kind, joined⟩
    obtain ⟨l, -, -, succ⟩ := h.link_of_joined nodup joined
    exact succ

theorem Keeps.successor_mem (h : Keeps sources targets done m) {f t : Fragment}
    (hs : m.successor f = some t) : t ∈ targets := by
  rw [successor_eq] at hs
  obtain ⟨l, hl, -⟩ := Option.bind_eq_some_iff.mp hs
  obtain ⟨t', mem, succ, -⟩ := h.joined_of_link hl
  rw [successor_eq, hs] at succ
  cases succ
  exact mem

theorem Keeps.kindOf_iff (h : Keeps sources targets done m)
    (nodup : (sources.map (·.handle)).Nodup) (f : Fragment) (kind : Link.Kind) :
    m.kindOf f = some kind ↔ ∃ t, Joined done f t kind := by
  rw [kindOf_eq]
  constructor
  · intro hk
    obtain ⟨l, hl, rfl⟩ := Option.map_eq_some_iff.mp hk
    obtain ⟨t, -, -, joined⟩ := h.joined_of_link hl
    exact ⟨t, joined⟩
  · rintro ⟨t, joined⟩
    obtain ⟨l, hl, rfl, -⟩ := h.link_of_joined nodup joined
    rw [hl]
    rfl

theorem WellFormed.kindOf_eq_none (h : m.WellFormed) (f : Fragment) :
    m.kindOf f = none ↔ m.successor f = none := by
  rw [kindOf_eq, Option.map_eq_none_iff, ← Option.isNone_iff_eq_none, ← Option.isNone_iff_eq_none,
    ← Option.not_isSome, ← Option.not_isSome, h.isSome_successor]

/-- What a matching tells of itself is the links that it holds. -/
theorem Keeps.tells (h : Keeps sources targets done m) (hs : (sources.map (·.handle)).Nodup)
    (ht : (targets.map (·.handle)).Nodup) : Tells sources targets done m := by
  have sourcesWhere := h.wellFormed.sourcesWhere_eq h.sources_eq hs
  have targetsWhere : ∀ linked, m.targetsWhere linked =
      (targets.filter fun t => (m.predecessor t).isSome == linked).map some := by
    intro linked
    rw [← sourcesWhere_mirror, h.wellFormed.mirror.sourcesWhere_eq h.targets_eq ht]
    simp only [successor_mirror]
  have by_source : m.links.length = sources.countP fun f => (m.successor f).isSome := by
    have length := h.wellFormed.mirror.length_links h.sources_eq hs
    simp only [predecessor_mirror] at length
    rw [← length]
    exact (List.length_map _).symm
  have predecessor : ∀ f t, (m.predecessor t).map (·.handle) = some f.handle ↔
      ∃ kind, Joined done f t kind := by
    intro f t
    rw [← successor_mirror, h.mirror.successor_iff ht]
    exact exists_congr fun _ => joined_turned
  refine
    { successor := h.successor_iff hs
      predecessor := predecessor
      inverse := fun f t => (h.successor_iff hs f t).trans (predecessor f t).symm
      successor_mem := fun f t => h.successor_mem
      predecessor_mem := fun f t hp => h.mirror.successor_mem (m.successor_mirror t ▸ hp)
      kind := h.kindOf_iff hs
      without_kind := h.wellFormed.kindOf_eq_none
      sides := ⟨h.sources_eq, h.targets_eq⟩
      sources_where := sourcesWhere
      targets_where := targetsWhere
      pairs := pairs_eq h.sources_eq hs
      length_done := h.length_eq
      length_pairs := ?_
      length_sources := ?_
      length_targets := ?_ }
  · rw [by_source, pairs_eq h.sources_eq hs, List.length_filterMap_eq_countP]
    simp only [Option.isSome_map]
  · rw [by_source, sourcesWhere, List.length_map, List.countP_eq_length_filter]
    simp only [beq_true]
  · rw [h.wellFormed.length_links h.targets_eq ht, targetsWhere, List.length_map,
      List.countP_eq_length_filter]
    simp only [beq_true]

/-! ### How requests are answered -/

theorem isAmong_iff {fs : List Fragment} {f : Option Fragment} :
    Fragment.IsAmong fs f ↔ ∃ g k, f = some g ∧ place g.handle (fs.map some) = some k := by
  constructor
  · rintro ⟨g, hg, e⟩
    obtain ⟨f', rfl, same⟩ := Option.map_eq_some_iff.mp e
    have mem : some g ∈ fs.map some := List.mem_map_of_mem hg
    obtain ⟨k, hk⟩ := exists_place mem
    exact ⟨f', k, rfl, by rw [same]; exact hk⟩
  · rintro ⟨g, k, rfl, hk⟩
    obtain ⟨g', hg', e⟩ := exists_of_place hk
    exact ⟨g', List.mem_of_getElem? hg', congrArg some e.symm⟩

theorem place_eq_none {fs : List Fragment} {f : Option Fragment} (h : ¬ Fragment.IsAmong fs f) :
    (f.bind fun g => place g.handle (fs.map some)) = none := by
  rw [Option.eq_none_iff_forall_ne_some]
  intro k hk
  obtain ⟨g, rfl, hk⟩ := Option.bind_eq_some_iff.mp hk
  exact h (isAmong_iff.mpr ⟨g, k, rfl, hk⟩)

theorem Keeps.link_of_unknown (h : Keeps sources targets done m) {r : Request}
    (unknown : ¬ (Fragment.IsAmong sources r.source ∧ Fragment.IsAmong targets r.target)) :
    ∃ cause, m.link r.source r.target r.kind = .error (.misuse cause) := by
  by_cases known : Fragment.IsAmong sources r.source
  · have missing := place_eq_none fun known' => unknown ⟨known, known'⟩
    obtain ⟨f, i, hf, hi⟩ := isAmong_iff.mp known
    rw [← h.sources_eq] at hi
    rw [← h.targets_eq] at missing
    refine ⟨.unknown .target, ?_⟩
    unfold link
    rw [hf, placeOn_eq .source hi]
    simp only [placeOn, fragments, missing]
    rfl
  · have missing := place_eq_none known
    rw [← h.sources_eq] at missing
    refine ⟨.unknown .source, ?_⟩
    unfold link
    simp only [placeOn, fragments, missing]
    rfl

/-- A request for two fragments that are known is granted if neither has a link. -/
theorem WellFormed.link_eq (h : m.WellFormed) {f t : Fragment} {i j : Nat}
    (hi : place f.handle m.sources = some i) (hj : place t.handle m.targets = some j)
    (kind : Link.Kind) :
    m.link (some f) (some t) kind =
      if (m.successor f).isSome then .error (.inconsistent (.alreadyLinked .source))
      else if (m.predecessor t).isSome then .error (.inconsistent (.alreadyLinked .target))
      else .ok { m with links := m.links ++ [⟨i, j, kind⟩] } := by
  have source : (m.successor f).isSome = (m.linkFrom i).isSome := by
    rw [h.isSome_successor, hi, Option.bind_some]
  have target : (m.predecessor t).isSome = (m.linkTo j).isSome := by
    have hj' : place t.handle m.mirror.sources = some j := hj
    rw [← successor_mirror, h.mirror.isSome_successor, hj', Option.bind_some, linkFrom_mirror,
      Option.isSome_map]
  unfold Matching.link
  rw [placeOn_eq .source hi, placeOn_eq .target hj, source, target]
  by_cases hf : (m.linkFrom i).isSome
  · simp only [hf, bind, Except.bind, throw, throwThe, MonadExceptOf.throw, if_true]
  · by_cases ht : (m.linkTo j).isSome
    · simp only [hf, ht, bind, Except.bind, throw, throwThe, MonadExceptOf.throw, if_true, pure,
        Except.pure, Bool.false_eq_true, if_false]
    · simp only [hf, ht, bind, Except.bind, pure, Except.pure, Bool.false_eq_true, if_false]

theorem Keeps.answers (h : Keeps sources targets done m) (r : Request) :
    Answers sources targets m r := by
  have refused : ∀ fault, m.link r.source r.target r.kind = .error fault → m.after r = m := by
    intro fault told
    unfold after
    rw [told]
  by_cases known : Fragment.IsAmong sources r.source ∧ Fragment.IsAmong targets r.target
  · obtain ⟨f, i, hf, hi⟩ := isAmong_iff.mp known.1
    obtain ⟨t, j, ht, hj⟩ := isAmong_iff.mp known.2
    rw [← h.sources_eq] at hi
    rw [← h.targets_eq] at hj
    have answer := h.wellFormed.link_eq hi hj r.kind
    have taken : (r.source.bind m.successor).isSome ∨ (r.target.bind m.predecessor).isSome ↔
        (m.successor f).isSome ∨ (m.predecessor t).isSome := by
      rw [hf, ht, Option.bind_some, Option.bind_some]
    rw [← hf, ← ht] at answer
    by_cases linked_f : (m.successor f).isSome
    · rw [if_pos linked_f] at answer
      refine ⟨?_, ?_, ?_, refused⟩ <;> simp [answer, known, taken, linked_f]
    · rw [if_neg linked_f] at answer
      by_cases linked_t : (m.predecessor t).isSome
      · rw [if_pos linked_t] at answer
        refine ⟨?_, ?_, ?_, refused⟩ <;> simp [answer, known, taken, linked_t]
      · rw [if_neg linked_t] at answer
        refine ⟨?_, ?_, ?_, refused⟩ <;> simp [answer, known, taken, linked_f, linked_t]
  · obtain ⟨cause, told⟩ := h.link_of_unknown known
    refine ⟨?_, ?_, ?_, refused⟩
    · simp [told, ← not_and_or, known]
    · simp [told, known]
    · simp [told, known]

theorem Keeps.granted (h : Keeps sources targets done m) {m' : Matching} {r : Request}
    (linked : m.link r.source r.target r.kind = .ok m') :
    Keeps sources targets (done ++ [r]) m' := by
  have known := ((h.answers r).granted.mp ⟨m', linked⟩).1
  obtain ⟨f, i, hf, hi⟩ := isAmong_iff.mp known.1
  obtain ⟨t, j, ht, hj⟩ := isAmong_iff.mp known.2
  rw [← h.sources_eq] at hi
  rw [← h.targets_eq] at hj
  obtain ⟨i', j', place_f, place_t, -, -, made⟩ := link_eq_ok linked
  rw [hf, placeOn_eq .source hi] at place_f
  rw [ht, placeOn_eq .target hj] at place_t
  cases place_f
  cases place_t
  have wellFormed := h.wellFormed.link linked
  subst made
  have fits : Fits sources targets ⟨i, j, r.kind⟩ r := by
    obtain ⟨f', hf', same_f⟩ := exists_of_place (h.sources_eq ▸ hi)
    obtain ⟨t', ht', same_t⟩ := exists_of_place (h.targets_eq ▸ hj)
    refine ⟨⟨f', t', hf', ht', ?_, ?_⟩, rfl⟩
    · rw [hf, same_f]
      rfl
    · rw [ht, same_t]
      rfl
  refine ⟨wellFormed, h.sources_eq, h.targets_eq, fun l hl => ?_, fun r' hr' => ?_, ?_⟩
  · rcases List.mem_append.mp hl with hl | hl
    · obtain ⟨r', hr', fits'⟩ := h.requested l hl
      exact ⟨r', List.mem_append_left _ hr', fits'⟩
    · rw [List.mem_singleton.mp hl]
      exact ⟨r, List.mem_append_right _ (List.mem_singleton_self r), fits⟩
  · rcases List.mem_append.mp hr' with hr' | hr'
    · obtain ⟨l, hl, fits'⟩ := h.made r' hr'
      exact ⟨l, List.mem_append_left _ hl, fits'⟩
    · rw [List.mem_singleton.mp hr']
      exact ⟨_, List.mem_append_right _ (List.mem_singleton_self _), fits⟩
  · rw [List.length_append, List.length_append, h.length_eq]
    rfl

/-- A matching keeps the links of the requests that it grants, and of no others. -/
theorem Keeps.run : ∀ {done : List Request} {m : Matching} (requests : List Request),
    Keeps sources targets done m →
      Keeps sources targets (done ++ m.granted requests) (requests.foldl after m)
  | done, m, [], h => by
    rw [Matching.granted, List.append_nil]
    exact h
  | done, m, r :: rs, h => by
    rw [List.foldl_cons, Matching.granted, after]
    split
    next m' linked =>
      have further := (h.granted linked).run rs
      rwa [List.append_assoc] at further
    next => exact h.run rs

end Keeps

theorem keeps_new (ordinal : Int) (sources targets : List Fragment) :
    Keeps sources targets [] ⟨ordinal, sources.map some, targets.map some, []⟩ where
  wellFormed := ⟨.nil, .nil, by simp, by simp⟩
  sources_eq := rfl
  targets_eq := rfl
  requested _ h := by cases h
  made _ h := by cases h
  length_eq := rfl

/-- A matching that starts without links is a partial one-to-one map from its sources to
its targets after any requests, and all that it tells of itself agrees on it. -/
theorem link_consistent (ordinal : Int) {sources targets : List Fragment}
    (once : (sources.map (·.handle)).Nodup) (once' : (targets.map (·.handle)).Nodup)
    (requests : List Request) :
    let start : Matching := ⟨ordinal, sources.map some, targets.map some, []⟩
    let m := requests.foldl after start
    Tells sources targets (start.granted requests) m ∧ ∀ r, Answers sources targets m r := by
  intro start m
  have keeps : Keeps sources targets (start.granted requests) m :=
    (keeps_new ordinal sources targets).run requests
  exact ⟨keeps.tells once once', keeps.answers⟩

/-- Two fragments that are on both sides: one is linked to itself, and then the other
one can be too, but nothing else. -/
theorem link_consistent_shared :
    let f := Fragment.plain 0 []
    let g := Fragment.plain 1 []
    let requests : List Request := [⟨some f, some f, .position⟩, ⟨none, some g, .position⟩,
      ⟨some g, some f, .signature⟩, ⟨some g, some g, .signature⟩]
    let start : Matching := ⟨1, [some f, some g], [some g, some f], []⟩
    let m := requests.foldl after start
    (start.granted requests).map Request.kind = [.position, .signature] ∧
      Tells [f, g] [g, f] (start.granted requests) m ∧
        ∃ cause, m.link (some f) (some g) .position = .error (.inconsistent cause) := by
  intro f g requests start m
  have once : ([f, g].map (·.handle)).Nodup := by decide
  have once' : ([g, f].map (·.handle)).Nodup := by decide
  obtain ⟨tells, answers⟩ := link_consistent 1 once once' requests
  have known : Fragment.IsAmong [f, g] (some f) := ⟨f, List.mem_cons_self, rfl⟩
  have known' : Fragment.IsAmong [g, f] (some g) := ⟨g, List.mem_cons_self, rfl⟩
  exact ⟨rfl, tells, (answers ⟨some f, some g, .position⟩).inconsistent.mpr
    ⟨⟨known, known'⟩, .inl rfl⟩⟩

end Matching
end Lineage
