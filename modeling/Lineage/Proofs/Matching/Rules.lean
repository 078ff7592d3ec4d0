/-
# The rules of a matching

The links that a step makes follow rules that do not mention the rounds. A source
that is linked by its signature is linked to a target whose signature it
recognises, and every later target like that went to an earlier source; one that
is not finds every such target gone to an earlier source. With positions it is
the earlier targets that went elsewhere, be it in the first round or to an
earlier source in the second. No two sets of links follow these rules, so they
say what a matching is.

Key definitions: `Matching.Ruled`, `Matching.Signs`, `Matching.Lies`.
Key theorems: `Matching.Ruled.unique`, `Matching.ruled_linksWith`, `Matcher.map_ruled`.
-/
import Lineage.Proofs.Matching.Carrying
import Lineage.Proofs.Matching.Rounds
import Mathlib.Data.List.Nodup

namespace Lineage
namespace Matching

/-! ### Rules -/

/-- A target is linked by signature to a source before the given one. -/
def SignedBefore (links : List Link) (i j : Nat) : Prop :=
  ∃ i', i' < i ∧ ⟨i', j, .signature⟩ ∈ links

/-- A target is linked by signature, or by position to a source before the given one. -/
def LinkedBefore (links : List Link) (i j : Nat) : Prop :=
  (∃ i', ⟨i', j, .signature⟩ ∈ links) ∨ ∃ i', i' < i ∧ ⟨i', j, .position⟩ ∈ links

/-- The rules for links, where `signs` says that a source recognises the
signature of a target and `lies` that a target is compatible with a source and
lies where its ranges have been carried to. -/
structure Ruled (signs lies : Nat → Nat → Prop) (links : List Link) : Prop where
  sources_once : (links.map Link.source).Nodup
  targets_once : (links.map Link.target).Nodup
  by_signature : ∀ i j, ⟨i, j, .signature⟩ ∈ links →
    signs i j ∧ ∀ j', j < j' → signs i j' → SignedBefore links i j'
  not_by_signature : ∀ i, (∀ j, ⟨i, j, .signature⟩ ∉ links) → ∀ j, signs i j →
    SignedBefore links i j
  by_position : ∀ i j, ⟨i, j, .position⟩ ∈ links →
    (∀ j', ⟨i, j', .signature⟩ ∉ links) ∧ lies i j ∧
      ∀ j', j' < j → lies i j' → LinkedBefore links i j'
  not_linked : ∀ i, (∀ l ∈ links, l.source ≠ i) → ∀ j, lies i j → LinkedBefore links i j

namespace Ruled

variable {signs lies : Nat → Nat → Prop} {links links' : List Link}

theorem eq_of_target (h : Ruled signs lies links) {l l' : Link} (hl : l ∈ links)
    (hl' : l' ∈ links) (e : l.target = l'.target) : l = l' :=
  List.inj_on_of_nodup_map h.targets_once hl hl' e

/-- The links of one kind are settled source by source, if those of the sources before a
source decide its own. -/
theorem iff_of_before {kind : Link.Kind}
    (forth : ∀ {i}, (∀ i' j, i' < i → (⟨i', j, kind⟩ ∈ links ↔ ⟨i', j, kind⟩ ∈ links')) →
      ∀ {j}, ⟨i, j, kind⟩ ∈ links → ⟨i, j, kind⟩ ∈ links')
    (back : ∀ {i}, (∀ i' j, i' < i → (⟨i', j, kind⟩ ∈ links' ↔ ⟨i', j, kind⟩ ∈ links)) →
      ∀ {j}, ⟨i, j, kind⟩ ∈ links' → ⟨i, j, kind⟩ ∈ links) (i : Nat) :
    ∀ j, ⟨i, j, kind⟩ ∈ links ↔ ⟨i, j, kind⟩ ∈ links' := by
  induction i using Nat.strongRecOn with
  | _ i ih =>
    exact fun _ => ⟨forth fun i' j lt => ih i' lt j, back fun i' j lt => (ih i' lt j).symm⟩

/-- If no earlier source has a target by signature, neither is it a target that
the rules let a source pass by. -/
theorem not_signedBefore (h : Ruled signs lies links) {i j : Nat}
    (before : ∀ i' j, i' < i → ⟨i', j, .signature⟩ ∈ links' → ⟨i', j, .signature⟩ ∈ links)
    (hl : ⟨i, j, .signature⟩ ∈ links) : ¬ SignedBefore links' i j := by
  rintro ⟨i', lt, hl'⟩
  have same := h.eq_of_target hl (before i' j lt hl') rfl
  exact Nat.ne_of_gt lt (congrArg Link.source same)

/-- The links by signature of one source, once those of the sources before it are known. -/
theorem signature_of_before (h : Ruled signs lies links) (h' : Ruled signs lies links') {i : Nat}
    (before : ∀ i' j, i' < i →
      (⟨i', j, .signature⟩ ∈ links ↔ ⟨i', j, .signature⟩ ∈ links')) {j : Nat}
    (hl : ⟨i, j, .signature⟩ ∈ links) : ⟨i, j, .signature⟩ ∈ links' := by
  by_cases linked : ∃ j', ⟨i, j', .signature⟩ ∈ links'
  · obtain ⟨j', hl'⟩ := linked
    rcases Nat.lt_trichotomy j j' with lt | rfl | lt
    · exact absurd ((h.by_signature i j hl).2 j' lt (h'.by_signature i j' hl').1)
        (h'.not_signedBefore (fun i' j lt => (before i' j lt).mp) hl')
    · exact hl'
    · exact absurd ((h'.by_signature i j' hl').2 j lt (h.by_signature i j hl).1)
        (h.not_signedBefore (fun i' j lt => (before i' j lt).mpr) hl)
  · exact absurd
      (h'.not_by_signature i (fun j' hl' => linked ⟨j', hl'⟩) j (h.by_signature i j hl).1)
      (h.not_signedBefore (fun i' j lt => (before i' j lt).mpr) hl)

theorem signature_iff (h : Ruled signs lies links) (h' : Ruled signs lies links') :
    ∀ i j, ⟨i, j, .signature⟩ ∈ links ↔ ⟨i, j, .signature⟩ ∈ links' :=
  iff_of_before (h.signature_of_before h') (h'.signature_of_before h)

theorem not_linkedBefore (h : Ruled signs lies links) (h' : Ruled signs lies links') {i j : Nat}
    (before : ∀ i' j, i' < i → ⟨i', j, .position⟩ ∈ links' → ⟨i', j, .position⟩ ∈ links)
    (hl : ⟨i, j, .position⟩ ∈ links) : ¬ LinkedBefore links' i j := by
  rintro (⟨i', hl'⟩ | ⟨i', lt, hl'⟩)
  · have same := h.eq_of_target hl ((h.signature_iff h' i' j).mpr hl') rfl
    cases congrArg Link.kind same
  · have same := h.eq_of_target hl (before i' j lt hl') rfl
    exact Nat.ne_of_gt lt (congrArg Link.source same)

/-- The links by position of one source, once those of the sources before it are known. -/
theorem position_of_before (h : Ruled signs lies links) (h' : Ruled signs lies links') {i : Nat}
    (before : ∀ i' j, i' < i →
      (⟨i', j, .position⟩ ∈ links ↔ ⟨i', j, .position⟩ ∈ links')) {j : Nat}
    (hl : ⟨i, j, .position⟩ ∈ links) : ⟨i, j, .position⟩ ∈ links' := by
  obtain ⟨unsigned, here, passed⟩ := h.by_position i j hl
  by_cases linked : ∃ j', ⟨i, j', .position⟩ ∈ links'
  · obtain ⟨j', hl'⟩ := linked
    obtain ⟨-, here', passed'⟩ := h'.by_position i j' hl'
    rcases Nat.lt_trichotomy j j' with lt | rfl | lt
    · exact absurd (passed' j lt here)
        (h.not_linkedBefore h' (fun i' j lt => (before i' j lt).mpr) hl)
    · exact hl'
    · exact absurd (passed j' lt here')
        (h'.not_linkedBefore h (fun i' j lt => (before i' j lt).mp) hl')
  · refine absurd (h'.not_linked i ?_ j here)
      (h.not_linkedBefore h' (fun i' j lt => (before i' j lt).mpr) hl)
    rintro ⟨i', j', kind⟩ hl' rfl
    cases kind with
    | signature => exact unsigned j' ((h.signature_iff h' i' j').mpr hl')
    | position => exact linked ⟨j', hl'⟩

theorem position_iff (h : Ruled signs lies links) (h' : Ruled signs lies links') :
    ∀ i j, ⟨i, j, .position⟩ ∈ links ↔ ⟨i, j, .position⟩ ∈ links' :=
  iff_of_before (h.position_of_before h') (h'.position_of_before h)

/-- The rules determine the links. -/
theorem unique (h : Ruled signs lies links) (h' : Ruled signs lies links') (l : Link) :
    l ∈ links ↔ l ∈ links' := by
  obtain ⟨i, j, kind⟩ := l
  cases kind with
  | signature => exact h.signature_iff h' i j
  | position => exact h.position_iff h' i j

end Ruled

/-! ### The links of a step -/

/-- A source recognises the signature of a target. -/
def Signs (sources targets : List Fragment) (i j : Nat) : Prop :=
  ∃ f t, sources[i]? = some f ∧ targets[j]? = some t ∧ f.sameSignature t = true

/-- A target is compatible with a source and lies where the changes carry its ranges. -/
def Lies (changes : List Change) (a : Archive) (sources targets : List Fragment) (i j : Nat) :
    Prop :=
  ∃ f t ranges, sources[i]? = some f ∧ targets[j]? = some t ∧
    (carry changes f).answer a = .ok ranges ∧ f.compatible t = true ∧
      f.sameRanges ranges t = true

/-- The links that two rounds make. -/
def linksOf (first : Round (Fragment × Nat) (Fragment × Nat))
    (second : Round ((Fragment × Nat) × List Range) (Fragment × Nat)) : List Link :=
  first.pairs.map (fun (f, t) => (⟨f.2, t.2, .signature⟩ : Link)) ++
    second.pairs.map fun (f, t) => ⟨f.1.2, t.2, .position⟩

section Rounds

variable {first : Round (Fragment × Nat) (Fragment × Nat)}
  {second : Round ((Fragment × Nat) × List Range) (Fragment × Nat)}

theorem mem_linksOf_signature {i j : Nat} :
    ⟨i, j, .signature⟩ ∈ linksOf first second ↔ ∃ f t, ((f, i), (t, j)) ∈ first.pairs := by
  unfold linksOf
  simp

theorem mem_linksOf_position {i j : Nat} :
    ⟨i, j, .position⟩ ∈ linksOf first second ↔
      ∃ f ranges t, (((f, i), ranges), (t, j)) ∈ second.pairs := by
  unfold linksOf
  simp

theorem map_linksOf {α : Type} (g : Link → α) :
    (linksOf first second).map g =
      first.pairs.map (fun (f, t) => g ⟨f.2, t.2, .signature⟩) ++
        second.pairs.map fun (f, t) => g ⟨f.1.2, t.2, .position⟩ := by
  unfold linksOf
  rw [List.map_append, List.map_map, List.map_map]
  rfl

end Rounds

theorem pairwise_zipIdx (fs : List Fragment) :
    fs.zipIdx.Pairwise fun f g => f.2 < g.2 := by
  apply List.pairwise_map.mp
  rw [List.zipIdx_map_snd]
  exact List.pairwise_lt_range'

theorem nodup_zipIdx (fs : List Fragment) : (fs.zipIdx.map Prod.snd).Nodup := by
  rw [List.zipIdx_map_snd]
  exact List.nodup_range'

section Step

variable {sources targets : List Fragment} {carried : List ((Fragment × Nat) × List Range)}

theorem fair_bySignature (sources targets : List Fragment) :
    Round.Fair Prod.snd (fun f t => f.1.sameSignature t.1) (fun c b => b.2 < c.2)
      sources.zipIdx targets.zipIdx (bySignature sources.zipIdx targets.zipIdx) :=
  Round.play_fair (fun _ => Round.picks_pickLast Prod.snd _) _ _
    (pairwise_zipIdx sources) (pairwise_zipIdx targets)

theorem fair_byPosition {left : List (Fragment × Nat)}
    (hs : (carried.map Prod.fst).Sublist sources.zipIdx) (ht : left.Sublist targets.zipIdx) :
    Round.Fair (fun f => f.1.2) (fun f t => f.1.1.compatible t.1 && f.1.1.sameRanges f.2 t.1)
      (fun c b => c.2 < b.2) carried left (byPosition carried left) := by
  have ordered := (pairwise_zipIdx sources).sublist hs
  rw [List.pairwise_map] at ordered
  exact Round.play_fair (fun _ => Round.picks_pickFirst Prod.snd _) _ _ ordered
    ((pairwise_zipIdx targets).sublist ht)

/-- The links of a step whose sources that are left over have been carried over. -/
def linksWith (sources targets : List Fragment) (carried : List ((Fragment × Nat) × List Range)) :
    List Link :=
  let first := bySignature sources.zipIdx targets.zipIdx
  linksOf first (byPosition carried first.left)

variable (hc : carried.map Prod.fst = (bySignature sources.zipIdx targets.zipIdx).unpaired)

section Carried

include hc

theorem fair_second :
    Round.Fair (fun f => f.1.2) (fun f t => f.1.1.compatible t.1 && f.1.1.sameRanges f.2 t.1)
      (fun c b => c.2 < b.2) carried (bySignature sources.zipIdx targets.zipIdx).left
        (byPosition carried (bySignature sources.zipIdx targets.zipIdx).left) := by
  have first := fair_bySignature sources targets
  have sub : (carried.map Prod.fst).Sublist sources.zipIdx := by
    rw [hc]
    exact first.unpaired_sublist
  exact fair_byPosition sub first.left_sublist

theorem sources_linksWith : ((linksWith sources targets carried).map Link.source).Nodup := by
  have first := (fair_bySignature sources targets).pickers_perm.map Prod.snd
  have second := (fair_second hc).pickers_perm.map fun f => f.1.2
  have unpaired : carried.map (fun f => f.1.2) =
      (bySignature sources.zipIdx targets.zipIdx).unpaired.map Prod.snd := by
    rw [← hc, List.map_map]
    rfl
  rw [unpaired] at second
  rw [List.map_append] at first second
  have all := (second.append_left _).trans first |>.nodup_iff.mpr (nodup_zipIdx sources)
  rw [List.map_map, List.map_map, ← List.append_assoc] at all
  unfold linksWith
  rw [map_linksOf]
  exact (List.nodup_append.mp all).1

theorem targets_linksWith : ((linksWith sources targets carried).map Link.target).Nodup := by
  have first := (fair_bySignature sources targets).items_perm.map Prod.snd
  have second := (fair_second hc).items_perm.map Prod.snd
  rw [List.map_append] at first second
  have all := (second.append_left _).trans first |>.nodup_iff.mpr (nodup_zipIdx targets)
  rw [List.map_map, List.map_map, ← List.append_assoc] at all
  unfold linksWith
  rw [map_linksOf]
  exact (List.nodup_append.mp all).1

end Carried

theorem rule_signature {i j : Nat} (h : ⟨i, j, .signature⟩ ∈ linksWith sources targets carried) :
    Signs sources targets i j ∧ ∀ j', j < j' → Signs sources targets i j' →
      SignedBefore (linksWith sources targets carried) i j' := by
  have first := fair_bySignature sources targets
  obtain ⟨f, t, h⟩ := mem_linksOf_signature.mp h
  have hf := List.mem_zipIdx_iff_getElem?.mp (first.mem_pickers h)
  have ht := List.mem_zipIdx_iff_getElem?.mp (first.mem_items h)
  refine ⟨⟨f, t, hf, ht, first.suited _ _ h⟩, ?_⟩
  rintro j' lt ⟨f', t', hf', ht', suits⟩
  cases hf.symm.trans hf'
  have later : (t', j') ∈ targets.zipIdx := List.mem_zipIdx_iff_getElem?.mpr ht'
  obtain ⟨⟨g, i'⟩, hg, earlier⟩ := first.taken _ _ h _ later suits lt
  exact ⟨i', earlier, mem_linksOf_signature.mpr ⟨g, t', hg⟩⟩

theorem rule_not_signature {i : Nat}
    (unsigned : ∀ j, ⟨i, j, .signature⟩ ∉ linksWith sources targets carried) {j : Nat}
    (signs : Signs sources targets i j) :
    SignedBefore (linksWith sources targets carried) i j := by
  have first := fair_bySignature sources targets
  obtain ⟨f, t, hf, ht, suits⟩ := signs
  have source : (f, i) ∈ sources.zipIdx := List.mem_zipIdx_iff_getElem?.mpr hf
  have target : (t, j) ∈ targets.zipIdx := List.mem_zipIdx_iff_getElem?.mpr ht
  rcases first.paired_or_unpaired source with ⟨⟨t', j'⟩, h⟩ | unpaired
  · exact absurd (mem_linksOf_signature.mpr ⟨f, t', h⟩) (unsigned j')
  · obtain ⟨⟨g, i'⟩, hg, earlier⟩ := first.gone _ unpaired _ target suits
    exact ⟨i', earlier, mem_linksOf_signature.mpr ⟨g, t, hg⟩⟩

include hc

theorem rule_position {changes : List Change} {a : Archive}
    (carries : ∀ f ∈ carried, (carry changes f.1.1).answer a = .ok f.2) {i j : Nat}
    (h : ⟨i, j, .position⟩ ∈ linksWith sources targets carried) :
    (∀ j', ⟨i, j', .signature⟩ ∉ linksWith sources targets carried) ∧
      Lies changes a sources targets i j ∧ ∀ j', j' < j → Lies changes a sources targets i j' →
        LinkedBefore (linksWith sources targets carried) i j' := by
  have first := fair_bySignature sources targets
  have second := fair_second hc
  obtain ⟨f, ranges, t, hp⟩ := mem_linksOf_position.mp h
  have picker := second.mem_pickers hp
  have left : (f, i) ∈ carried.map Prod.fst := List.mem_map_of_mem (f := Prod.fst) picker
  rw [hc] at left
  have hf := List.mem_zipIdx_iff_getElem?.mp (first.unpaired_sublist.subset left)
  have ht := List.mem_zipIdx_iff_getElem?.mp (first.left_sublist.subset (second.mem_items hp))
  have suited := second.suited _ _ hp
  rw [Bool.and_eq_true] at suited
  refine ⟨fun j' signed => ?_, ⟨f, t, ranges, hf, ht, carries _ picker, suited⟩, ?_⟩
  · cases List.inj_on_of_nodup_map (sources_linksWith hc) h signed rfl
  · rintro j' lt ⟨f', t', ranges', hf', ht', again, suits⟩
    cases hf.symm.trans hf'
    cases (carries _ picker).symm.trans again
    have earlier : (t', j') ∈ targets.zipIdx := List.mem_zipIdx_iff_getElem?.mpr ht'
    rcases first.paired_or_left earlier with ⟨⟨g, i'⟩, hg⟩ | left
    · exact .inl ⟨i', mem_linksOf_signature.mpr ⟨g, t', hg⟩⟩
    · have suits := Bool.and_eq_true_iff.mpr suits
      obtain ⟨⟨⟨g, i'⟩, rs⟩, hg, before⟩ := second.taken _ _ hp _ left suits lt
      exact .inr ⟨i', before, mem_linksOf_position.mpr ⟨g, rs, t', hg⟩⟩

theorem rule_not_linked {changes : List Change} {a : Archive}
    (carries : ∀ f ∈ carried, (carry changes f.1.1).answer a = .ok f.2) {i : Nat}
    (unlinked : ∀ l ∈ linksWith sources targets carried, l.source ≠ i) {j : Nat}
    (lies : Lies changes a sources targets i j) :
    LinkedBefore (linksWith sources targets carried) i j := by
  have first := fair_bySignature sources targets
  have second := fair_second hc
  obtain ⟨f, t, ranges, hf, ht, again, suits⟩ := lies
  have source : (f, i) ∈ sources.zipIdx := List.mem_zipIdx_iff_getElem?.mpr hf
  have target : (t, j) ∈ targets.zipIdx := List.mem_zipIdx_iff_getElem?.mpr ht
  rcases first.paired_or_unpaired source with ⟨⟨t', j'⟩, h⟩ | unpaired
  · exact absurd rfl (unlinked _ (mem_linksOf_signature.mpr ⟨f, t', h⟩))
  rw [← hc] at unpaired
  obtain ⟨⟨g, rs⟩, picker, rfl⟩ := List.mem_map.mp unpaired
  cases (carries _ picker).symm.trans again
  rcases second.paired_or_unpaired picker with ⟨⟨t', j'⟩, h⟩ | unpaired
  · exact absurd rfl (unlinked _ (mem_linksOf_position.mpr ⟨f, rs, t', h⟩))
  rcases first.paired_or_left target with ⟨⟨g, i'⟩, hg⟩ | left
  · exact .inl ⟨i', mem_linksOf_signature.mpr ⟨g, t, hg⟩⟩
  · have suits := Bool.and_eq_true_iff.mpr suits
    obtain ⟨⟨⟨g, i'⟩, rs⟩, hg, before⟩ := second.gone _ unpaired _ left suits
    exact .inr ⟨i', before, mem_linksOf_position.mpr ⟨g, rs, t, hg⟩⟩

/-- The links of a step follow the rules, if the sources that are left over after the
first round were carried over as the changes have it. -/
theorem ruled_linksWith {changes : List Change} {a : Archive}
    (carries : ∀ f ∈ carried, (carry changes f.1.1).answer a = .ok f.2) :
    Ruled (Signs sources targets) (Lies changes a sources targets)
      (linksWith sources targets carried) where
  sources_once := sources_linksWith hc
  targets_once := targets_linksWith hc
  by_signature _ _ h := rule_signature h
  not_by_signature _ unsigned _ signs := rule_not_signature unsigned signs
  by_position _ _ h := rule_position hc carries h
  not_linked _ unlinked _ lies := rule_not_linked hc carries unlinked lies

end Step

/-! ### The matching of a step -/

/-- What a step answers: the links of the two rounds, with ranges that can be
carried over again in the archive it leaves behind. -/
theorem answer_ofStep {sources targets : List Fragment} {step : Step} {a : Archive} {m : Matching}
    (h : (ofStep sources targets step).answer a = .ok m) :
    ∃ carried, carried.map Prod.fst = (bySignature sources.zipIdx targets.zipIdx).unpaired ∧
      (∀ f ∈ carried, (carry step.changes f.1.1).answer ((ofStep sources targets step).after a) =
        .ok f.2) ∧
      m = ⟨step.ordinal, sources.map some, targets.map some,
        linksWith sources targets carried⟩ := by
  unfold ofStep at h ⊢
  obtain ⟨_, hv, h⟩ := Work.exists_of_answer_bind h
  rw [Work.after_bind_ok hv]
  obtain ⟨_, hn, h⟩ := Work.exists_of_answer_bind h
  rw [Work.after_bind_ok hn]
  obtain ⟨kept, hk, h⟩ := Work.exists_of_answer_bind h
  rw [Work.after_bind_ok hk]
  obtain ⟨carried, hc, h⟩ := Work.exists_of_answer_bind h
  rw [Work.after_bind_ok hc]
  rw [Work.answer_lift] at hk
  obtain ⟨firsts, settled⟩ := answer_carryAll kept hc
  refine ⟨carried, firsts, fun f hf => ?_, ?_⟩
  · rw [← carry_withoutAdditions hk]
    refine settled f hf _ ?_
    -- the two notices at the end of a step leave alone what is kept
    exact (Archive.Within.note _ _).trans (.note _ _)
  · exact (Except.ok.inj h).symm

end Matching

section Map

variable {matcher next : Matcher} {sources targets : List (Option Fragment)} {step : Step}
  {m : Matching} {a b : Archive}
  (h : (matcher.map sources targets step).run a = ((.ok m, next), b))
include h

/-- What a step that is matched has carried over, and the matching that comes of it. -/
theorem Matcher.carried_of_map :
    let before := Fragment.distinct sources
    let behind := Fragment.distinct targets
    ∃ carried, carried.map Prod.fst =
        (Matching.bySignature before.zipIdx behind.zipIdx).unpaired ∧
      (∀ f ∈ carried, (Matching.carry step.changes f.1.1).answer b = .ok f.2) ∧
      m = ⟨step.ordinal, before.map some, behind.map some,
        Matching.linksWith before behind carried⟩ := by
  intro before behind
  obtain ⟨run, -⟩ := run_map_eq_ok.mp h
  have after : (Matching.ofStep before behind step).after a = b := Work.after_of_run run
  obtain ⟨carried, hc, carries, made⟩ := Matching.answer_ofStep (Work.answer_of_run run)
  exact ⟨carried, hc, after ▸ carries, made⟩

theorem Matcher.ruled_of_map :
    Matching.Ruled (Matching.Signs (Fragment.distinct sources) (Fragment.distinct targets))
      (Matching.Lies step.changes b (Fragment.distinct sources) (Fragment.distinct targets))
      m.links := by
  obtain ⟨carried, hc, carries, rfl⟩ := carried_of_map h
  exact Matching.ruled_linksWith hc carries

end Map

/-- A step that is matched has the fragments of both sides, each once, and the only
links that follow the rules; what has no link by signature could be carried over. -/
theorem Matcher.map_ruled {matcher next : Matcher} {sources targets : List (Option Fragment)}
    {step : Step} {m : Matching} {a b : Archive}
    (h : (matcher.map sources targets step).run a = ((.ok m, next), b)) :
    let before := Fragment.distinct sources
    let behind := Fragment.distinct targets
    m.ordinal = step.ordinal ∧ m.sources = before.map some ∧ m.targets = behind.map some ∧
      Matching.Ruled (Matching.Signs before behind) (Matching.Lies step.changes b before behind)
        m.links ∧
      (∀ i f, before[i]? = some f → (∀ j, ⟨i, j, .signature⟩ ∉ m.links) →
        ∃ ranges, (Matching.carry step.changes f).answer b = .ok ranges) ∧
      ∀ links, Matching.Ruled (Matching.Signs before behind)
        (Matching.Lies step.changes b before behind) links → ∀ l, l ∈ links ↔ l ∈ m.links := by
  intro before behind
  have ruled := ruled_of_map h
  obtain ⟨carried, hc, carries, rfl⟩ := carried_of_map h
  refine ⟨rfl, rfl, rfl, ruled, fun i f hf unsigned => ?_, fun links h' l => h'.unique ruled l⟩
  have first := Matching.fair_bySignature before behind
  have source : (f, i) ∈ before.zipIdx := List.mem_zipIdx_iff_getElem?.mpr hf
  rcases first.paired_or_unpaired source with ⟨⟨t, j⟩, paired⟩ | unpaired
  · exact absurd (Matching.mem_linksOf_signature.mpr ⟨f, t, paired⟩) (unsigned j)
  · rw [← hc] at unpaired
    obtain ⟨⟨g, ranges⟩, picker, rfl⟩ := List.mem_map.mp unpaired
    exact ⟨ranges, carries _ picker⟩

theorem zero_nonneg : (0 : Int) ≤ 0 :=
  Int.le_refl 0

/-- The range of the first character of a file. -/
def Range.ofFirst (file : File) : Range :=
  let p : Position := ⟨⟨1, 1, 0, 0, Int.le_refl 1, Int.le_refl 1, zero_nonneg, zero_nonneg⟩,
    file, 4, Int.le.intro 3 rfl⟩
  ⟨p, p, rfl, zero_nonneg⟩

/-- A link in each round, the one across the other. -/
theorem Matcher.map_ruled_crossed :
    let old := Range.ofFirst ⟨⟨"a", "r1"⟩, .memory ['x']⟩
    let new := Range.ofFirst ⟨⟨"a", "r2"⟩, .memory ['x']⟩
    let before := [Fragment.basic 0 [old] (some "s") .null, Fragment.plain 1 [old]]
    let behind := [Fragment.plain 2 [new], Fragment.basic 3 [new] (some "s") .null]
    let matched := (Matcher.make []).map (before.map some) (behind.map some)
      ⟨1, "r2", some "r1", [], []⟩
    let links : List Link := [⟨0, 1, .signature⟩, ⟨1, 0, .position⟩]
    let after := (matched.run Archive.empty).2
    (matched.run Archive.empty).1 = (.ok ⟨1, before.map some, behind.map some, links⟩, ⟨behind⟩) ∧
      Matching.Ruled (Matching.Signs before behind) (Matching.Lies [] after before behind)
        links := by
  intro old new before behind matched links after
  have h : matched.run Archive.empty =
      ((.ok ⟨1, before.map some, behind.map some, links⟩, ⟨behind⟩), after) := rfl
  exact ⟨congrArg Prod.fst h, (map_ruled h).2.2.2.1⟩

end Lineage
