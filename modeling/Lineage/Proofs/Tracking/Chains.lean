/-
# Chains

Over a list of matchings, a target of one of them continues a target of the one
before if it is linked from it. What one target continues is one target, and one
target is continued by one; so targets fall into chains that cannot be made longer
at either end, and a target of a matching is in one chain at one place.

Key definitions: `Occurs`, `Continues`, `IsChain`, `Chains`.
Key theorems: `IsChain.getElem?_succ_iff`, `Chains.unique`, `Chains.mem_iff`.
-/
import Lineage.Proofs.Matching.Places

namespace Lineage

/-- A fragment is among the targets of a matching, counted from zero. -/
def Occurs (ms : List Matching) (k : Nat) (f : Fragment) : Prop :=
  ∃ m, ms[k]? = some m ∧ some f ∈ m.targets

/-- A target of a matching is linked to a target of the next one. -/
def Continues (ms : List Matching) (k : Nat) (p f : Fragment) : Prop :=
  Occurs ms k p ∧ ∃ m, ms[k + 1]? = some m ∧ some f ∈ m.targets ∧ m.predecessor f = some p

/-- A chain from matching `k` on, as long as it can be: each fragment is continued by
the next one, the first one continues nothing, and nothing continues the last one. -/
structure IsChain (ms : List Matching) (k : Nat) (fs : List Fragment) : Prop where
  nonempty : fs ≠ []
  stands : ∀ i f, fs[i]? = some f → Occurs ms (k + i) f
  linked : ∀ i f g, fs[i]? = some f → fs[i + 1]? = some g → Continues ms (k + i) f g
  first : ∀ f k' p, fs[0]? = some f → k' + 1 = k → ¬ Continues ms k' p f
  last : ∀ i f g, fs[i]? = some f → fs[i + 1]? = none → ¬ Continues ms (k + i) f g

/-- Every matching is one that a step makes, and fragments that share a handle are
one fragment. -/
structure Consistent (ms : List Matching) : Prop where
  mapped : ∀ m ∈ ms, m.Mapped
  byHandle : Fragment.ByHandle (ms.flatMap fun m => m.sources ++ m.targets)

section Chains

variable {ms : List Matching} {k : Nat} {f g p q : Fragment}

theorem Occurs.lt (h : Occurs ms k f) : k < ms.length := by
  obtain ⟨m, hm, -⟩ := h
  exact (List.getElem?_eq_some_iff.mp hm).1

theorem Occurs.mem (h : Occurs ms k f) : some f ∈ ms.flatMap fun m => m.sources ++ m.targets := by
  obtain ⟨m, hm, hf⟩ := h
  exact List.mem_flatMap.mpr ⟨m, List.mem_of_getElem? hm, List.mem_append_right _ hf⟩

theorem Continues.occurs (h : Continues ms k p f) : Occurs ms (k + 1) f := by
  obtain ⟨-, m, hm, hf, -⟩ := h
  exact ⟨m, hm, hf⟩

theorem Continues.left_unique (h : Continues ms k p f) (h' : Continues ms k q f) : p = q := by
  obtain ⟨-, m, hm, -, hp⟩ := h
  obtain ⟨-, m', hm', -, hq⟩ := h'
  cases hm.symm.trans hm'
  exact Option.some.inj (hp.symm.trans hq)

theorem Continues.right_unique (hms : Consistent ms) (h : Continues ms k p f)
    (h' : Continues ms k p g) : f = g := by
  obtain ⟨-, m, hm, hf, hp⟩ := id h
  obtain ⟨-, m', hm', hg, hq⟩ := id h'
  cases hm.symm.trans hm'
  have made := (hms.mapped m (List.mem_of_getElem? hm)).made
  exact made.byHandle_targets f g hf hg (made.wellFormed.handle_eq_of_predecessor hp hq rfl)

theorem exists_getElem?_of_succ {fs : List Fragment} {i : Nat} (h : fs[i + 1]? = some f) :
    ∃ p, fs[i]? = some p := by
  have lt := (List.getElem?_eq_some_iff.mp h).1
  exact ⟨_, List.getElem?_eq_getElem (by omega)⟩

/-- A chain goes on with what continues its fragments. -/
theorem IsChain.getElem?_succ_iff (hms : Consistent ms) {fs : List Fragment} (h : IsChain ms k fs)
    {i : Nat} (hf : fs[i]? = some f) : fs[i + 1]? = some g ↔ Continues ms (k + i) f g := by
  constructor
  · exact h.linked i f g hf
  · intro hg
    cases hn : fs[i + 1]? with
    | none => exact absurd hg (h.last i f g hf hn)
    | some g' => rw [(h.linked i f g' hf hn).right_unique hms hg]

/-- Chains that begin alike are the same. -/
theorem IsChain.eq_of_first (hms : Consistent ms) {fs fs' : List Fragment} (h : IsChain ms k fs)
    (h' : IsChain ms k fs') (first : fs[0]? = fs'[0]?) : fs = fs' := by
  apply List.ext_getElem?
  intro i
  induction i with
  | zero => exact first
  | succ i ih =>
    cases hf : fs[i]? with
    | none =>
      have short : fs.length ≤ i := List.getElem?_eq_none_iff.mp hf
      have short' : fs'.length ≤ i := List.getElem?_eq_none_iff.mp (ih ▸ hf)
      rw [List.getElem?_eq_none (by omega), List.getElem?_eq_none (by omega)]
    | some f =>
      apply Option.ext
      intro g
      rw [h.getElem?_succ_iff hms hf, h'.getElem?_succ_iff hms (ih ▸ hf)]

theorem IsChain.length_le {fs : List Fragment} (h : IsChain ms k fs) :
    k + fs.length ≤ ms.length := by
  have pos : 0 < fs.length := List.length_pos_iff.mpr h.nonempty
  have stands := h.stands (fs.length - 1) _ (List.getElem?_eq_getElem (by omega))
  have lt := stands.lt
  omega

end Chains

/-! ### One more matching -/

section Snoc

variable {ms : List Matching} {m : Matching} {k : Nat} {f p : Fragment}

theorem getElem?_snoc {α : Type} {l : List α} {x y : α} {i : Nat} :
    (l ++ [x])[i]? = some y ↔ l[i]? = some y ∨ (i = l.length ∧ x = y) := by
  rcases Nat.lt_trichotomy i l.length with lt | rfl | lt
  · rw [List.getElem?_append_left lt]
    simp only [Nat.ne_of_lt lt, false_and, or_false]
  · rw [List.getElem?_concat_length, List.getElem?_eq_none (Nat.le_refl _)]
    simp
  · rw [List.getElem?_eq_none (by simp; omega), List.getElem?_eq_none (by omega)]
    simp only [Nat.ne_of_gt lt, reduceCtorEq, false_and, or_false]

theorem occurs_snoc :
    Occurs (ms ++ [m]) k f ↔ Occurs ms k f ∨ (k = ms.length ∧ some f ∈ m.targets) := by
  unfold Occurs
  constructor
  · rintro ⟨m', hm, hf⟩
    rcases getElem?_snoc.mp hm with hm | ⟨e, rfl⟩
    · exact .inl ⟨m', hm, hf⟩
    · exact .inr ⟨e, hf⟩
  · rintro (⟨m', hm, hf⟩ | ⟨e, hf⟩)
    · exact ⟨m', getElem?_snoc.mpr (.inl hm), hf⟩
    · exact ⟨m, getElem?_snoc.mpr (.inr ⟨e, rfl⟩), hf⟩

theorem continues_snoc :
    Continues (ms ++ [m]) k p f ↔ Continues ms k p f ∨
      (k + 1 = ms.length ∧ Occurs ms k p ∧ some f ∈ m.targets ∧ m.predecessor f = some p) := by
  constructor
  · rintro ⟨hp, m', hm, hf, pred⟩
    have old : k < ms.length → Occurs ms k p := by
      intro lt
      rcases occurs_snoc.mp hp with hp | ⟨e, -⟩
      · exact hp
      · omega
    rcases getElem?_snoc.mp hm with hm | ⟨e, rfl⟩
    · have lt := (List.getElem?_eq_some_iff.mp hm).1
      exact .inl ⟨old (by omega), m', hm, hf, pred⟩
    · exact .inr ⟨e, old (by omega), hf, pred⟩
  · rintro (⟨hp, m', hm, hf, pred⟩ | ⟨e, hp, hf, pred⟩)
    · exact ⟨occurs_snoc.mpr (.inl hp), m', getElem?_snoc.mpr (.inl hm), hf, pred⟩
    · exact ⟨occurs_snoc.mpr (.inl hp), m, getElem?_snoc.mpr (.inr ⟨e, rfl⟩), hf, pred⟩

variable {fs : List Fragment}

theorem IsChain.first_snoc (h : IsChain ms k fs) {k' : Nat} (hf : fs[0]? = some f)
    (e : k' + 1 = k) : ¬ Continues (ms ++ [m]) k' p f := by
  intro hp
  rcases continues_snoc.mp hp with hp | ⟨len, -⟩
  · exact h.first f k' p hf e hp
  · have lt := (h.stands 0 f hf).lt
    omega

/-- A chain that the new matching does not continue is still one. -/
theorem IsChain.keep (h : IsChain ms k fs)
    (ends : ∀ i f g, fs[i]? = some f → k + i + 1 = ms.length → some g ∈ m.targets →
      m.predecessor g ≠ some f) : IsChain (ms ++ [m]) k fs := by
  refine ⟨h.nonempty, fun i f hf => occurs_snoc.mpr (.inl (h.stands i f hf)),
    fun i f g hf hg => continues_snoc.mpr (.inl (h.linked i f g hf hg)),
    fun f k' p hf e => h.first_snoc hf e, fun i f g hf hn hg => ?_⟩
  rcases continues_snoc.mp hg with hg | ⟨e, -, hg, pred⟩
  · exact h.last i f g hf hn hg
  · exact ends i f g hf e hg pred

/-- A chain up to the last matching is made longer by what continues it. -/
theorem IsChain.grow (h : IsChain ms k fs) (hp : fs.getLast? = some p)
    (e : k + fs.length = ms.length) (hf : some f ∈ m.targets) (pred : m.predecessor f = some p) :
    IsChain (ms ++ [m]) k (fs ++ [f]) := by
  have pos : 0 < fs.length := List.length_pos_iff.mpr h.nonempty
  rw [List.getLast?_eq_getElem?] at hp
  refine ⟨by simp, fun i g hg => ?_, fun i g g' hg hg' => ?_, fun g k' q hg e' => ?_,
    fun i g g' hg hn hc => ?_⟩
  · rcases getElem?_snoc.mp hg with hg | ⟨rfl, rfl⟩
    · exact occurs_snoc.mpr (.inl (h.stands i g hg))
    · exact occurs_snoc.mpr (.inr ⟨e, hf⟩)
  · rcases getElem?_snoc.mp hg' with hg' | ⟨len, rfl⟩
    · obtain ⟨q, hq⟩ := exists_getElem?_of_succ hg'
      cases hg.symm.trans (getElem?_snoc.mpr (.inl hq))
      exact continues_snoc.mpr (.inl (h.linked i _ g' hq hg'))
    · obtain rfl : i = fs.length - 1 := by omega
      cases hg.symm.trans (getElem?_snoc.mpr (.inl hp))
      exact continues_snoc.mpr (.inr ⟨by omega, h.stands _ _ hp, hf, pred⟩)
  · rcases getElem?_snoc.mp hg with hg | ⟨len, -⟩
    · exact h.first_snoc hg e'
    · omega
  · have short := List.getElem?_eq_none_iff.mp hn
    have lt := hc.occurs.lt
    simp only [List.length_append, List.length_singleton] at short lt
    omega

/-- A target of the new matching that continues nothing begins a chain. -/
theorem IsChain.new (hf : some f ∈ m.targets)
    (begins : ∀ k p, k + 1 = ms.length → Occurs ms k p → m.predecessor f ≠ some p) :
    IsChain (ms ++ [m]) ms.length [f] := by
  refine ⟨by simp, fun i g hg => ?_, fun i g g' _ hg' => ?_, fun g k' p hg e hc => ?_,
    fun i g g' hg _ hc => ?_⟩
  · cases i with
    | zero =>
      cases hg
      exact occurs_snoc.mpr (.inr ⟨rfl, hf⟩)
    | succ i => cases hg
  · cases hg'
  · cases hg
    rcases continues_snoc.mp hc with hc | ⟨-, hp, -, pred⟩
    · have lt := hc.occurs.lt
      omega
    · exact begins k' p e hp pred
  · have lt := hc.occurs.lt
    rw [List.length_append, List.length_singleton] at lt
    omega

end Snoc

/-! ### All chains in order -/

/-- One chain comes before another one: its first fragment is of an earlier matching,
or stands before the other's first one among the targets of the same matching. -/
def Precedes (ms : List Matching) (x y : Nat × List Fragment) : Prop :=
  x.1 < y.1 ∨ (x.1 = y.1 ∧ ∃ (m : Matching) (i j : Nat) (f g : Fragment), ms[x.1]? = some m ∧
    x.2[0]? = some f ∧ y.2[0]? = some g ∧ m.targets[i]? = some (some f) ∧
      m.targets[j]? = some (some g) ∧ i < j)

/-- Chains in order that all occurring fragments are in. -/
structure Chains (ms : List Matching) (chains : List (Nat × List Fragment)) : Prop where
  chain : ∀ x ∈ chains, IsChain ms x.1 x.2
  ordered : chains.Pairwise (Precedes ms)
  covers : ∀ k f, Occurs ms k f → ∃ x ∈ chains, ∃ i, x.2[i]? = some f ∧ x.1 + i = k

theorem Precedes.first_ne {ms : List Matching} (hms : Consistent ms) {x y : Nat × List Fragment}
    (h : Precedes ms x y) {f : Fragment} (hx : x.2[0]? = some f) (hy : y.2[0]? = some f) :
    x.1 ≠ y.1 := by
  rcases h with lt | ⟨e, m, i, j, f', g', hm, hf, hg, hi, hj, lt⟩
  · exact Nat.ne_of_lt lt
  · cases hx.symm.trans hf
    cases hy.symm.trans hg
    obtain ⟨fs, targets, nodup⟩ := (hms.mapped m (List.mem_of_getElem? hm)).targets
    rw [targets, List.getElem?_map] at hi hj
    obtain ⟨f₁, hi, ⟨⟩⟩ := Option.map_eq_some_iff.mp hi
    obtain ⟨f₂, hj, ⟨⟩⟩ := Option.map_eq_some_iff.mp hj
    have hi := Matching.place_eq nodup hi
    have hj := Matching.place_eq nodup hj
    have same : i = j := Option.some.inj (hi.symm.trans hj)
    omega

namespace Chains

variable {ms : List Matching} {chains : List (Nat × List Fragment)}

theorem eq_of_first (hms : Consistent ms) (h : Chains ms chains) {n n' : Nat}
    {x y : Nat × List Fragment} (hx : chains[n]? = some x) (hy : chains[n']? = some y)
    (start : x.1 = y.1) {f : Fragment} (hf : x.2[0]? = some f) (hg : y.2[0]? = some f) :
    n = n' := by
  obtain ⟨hn, rfl⟩ := List.getElem?_eq_some_iff.mp hx
  obtain ⟨hn', rfl⟩ := List.getElem?_eq_some_iff.mp hy
  have before := List.pairwise_iff_getElem.mp h.ordered
  rcases Nat.lt_trichotomy n n' with lt | e | lt
  · exact absurd start ((before n n' hn hn' lt).first_ne hms hf hg)
  · exact e
  · exact absurd start.symm ((before n' n hn' hn lt).first_ne hms hg hf)

/-- A fragment of a matching is in one chain, and there at one place. -/
theorem unique (hms : Consistent ms) (h : Chains ms chains) {n n' : Nat}
    {x y : Nat × List Fragment} (hx : chains[n]? = some x) (hy : chains[n']? = some y) :
    ∀ (i j : Nat) {f : Fragment}, x.2[i]? = some f → y.2[j]? = some f →
      x.1 + i = y.1 + j → n = n' ∧ i = j := by
  have chain := h.chain x (List.mem_of_getElem? hx)
  have chain' := h.chain y (List.mem_of_getElem? hy)
  intro i
  induction i with
  | zero =>
    intro j f hf hg e
    cases j with
    | zero => exact ⟨h.eq_of_first hms hx hy (by omega) hf hg, rfl⟩
    | succ j =>
      obtain ⟨p, hp⟩ := exists_getElem?_of_succ hg
      exact absurd (chain'.linked j p f hp hg) (chain.first f _ p hf (by omega))
  | succ i ih =>
    intro j f hf hg e
    obtain ⟨p, hp⟩ := exists_getElem?_of_succ hf
    have continues := chain.linked i p f hp hf
    cases j with
    | zero => exact absurd continues (chain'.first f _ p hg (by omega))
    | succ j =>
      obtain ⟨q, hq⟩ := exists_getElem?_of_succ hg
      have step : x.1 + i = y.1 + j := by omega
      have continues' := chain'.linked j q f hq hg
      rw [← step] at continues'
      cases continues.left_unique continues'
      obtain ⟨place, index⟩ := ih j hp hq step
      exact ⟨place, by rw [index]⟩

/-- All chains are there. -/
theorem mem_iff (hms : Consistent ms) (h : Chains ms chains) (k : Nat) (fs : List Fragment) :
    (k, fs) ∈ chains ↔ IsChain ms k fs := by
  refine ⟨h.chain (k, fs), fun hc => ?_⟩
  obtain ⟨f, hf⟩ : ∃ f, fs[0]? = some f :=
    ⟨_, List.getElem?_eq_getElem (List.length_pos_iff.mpr hc.nonempty)⟩
  obtain ⟨x, hx, i, hi, e⟩ := h.covers k f (hc.stands 0 f hf)
  have chain := h.chain x hx
  cases i with
  | zero =>
    obtain ⟨k', fs'⟩ := x
    obtain rfl : k' = k := e
    rwa [hc.eq_of_first hms chain (hf.trans hi.symm)]
  | succ i =>
    obtain ⟨p, hp⟩ := exists_getElem?_of_succ hi
    exact absurd (chain.linked i p f hp hi) (hc.first f _ p hf (by omega))

end Chains
end Lineage
