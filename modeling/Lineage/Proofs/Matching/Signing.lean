/-
# Which fragments are linked by signature

By the standard criterion the fragments with one signature form a class: a source of the class
suits the targets of the class and no others. In the first round the sources of a class take its
targets from the last one on, and the turns of all other sources change nothing about that
(`Round.filter_pairs_pickLast`). So the links of a class join its sources, from the first one on,
to its targets, from the last one on, until one side is used up (`Matcher.map_signed`).

As one side of every class is used up, no links that join sources to targets of their class, and
each to one at most, are more than those of the round: each of them shares the source or the target
with a link of the round, whichever side of its class is the smaller one
(`Matching.length_le_signed`).

Key definitions: `Fragment.placesSigned`.
Key theorems: `Round.filter_pairs_pickLast`, `Matching.length_le_signed`, `Matcher.map_signed`.
-/
import Lineage.Proofs.Matching.Rules
import Mathlib.Combinatorics.Enumerative.DoubleCounting

namespace Lineage

/-! ### Rounds with classes -/

namespace Round

variable {α β : Type}

/-- A pick from a class takes its last item. -/
theorem filter_of_pickLast {suits : β → Bool} {items rest : List β} {b : β}
    (h : pickLast suits items = some (b, rest)) :
    items.filter suits = rest.filter suits ++ [b] := by
  obtain ⟨l, r, rfl, rfl, suited, behind⟩ := pickLast_some h
  have none : r.filter suits = [] :=
    List.filter_eq_nil_iff.mpr fun c hc => Bool.eq_false_iff.mp (behind c hc)
  rw [List.filter_append, List.filter_append, List.filter_cons_of_pos suited, none,
    List.append_nil]

/-- A pick from elsewhere leaves a class as it is. -/
theorem filter_of_pickLast_foreign {suits q : β → Bool} {items rest : List β} {b : β}
    (h : pickLast suits items = some (b, rest)) (foreign : q b = false) :
    items.filter q = rest.filter q := by
  obtain ⟨l, r, rfl, rfl, -⟩ := pickLast_some h
  rw [List.filter_append, List.filter_append,
    List.filter_cons_of_neg (Bool.eq_false_iff.mp foreign)]

/-- In a round of last picks, the pickers of a class get the items of the class from the last one
on, if these are what suits them and nobody else takes any. -/
theorem filter_pairs_pickLast {suits : α → β → Bool} (p : α → Bool) {q : β → Bool} :
    ∀ {as : List α} (items : List β), (∀ a ∈ as, p a = true → suits a = q) →
      (∀ a ∈ as, p a = false → ∀ b, suits a b = true → q b = false) →
        (play (fun a => pickLast (suits a)) as items).pairs.filter (fun x => p x.1) =
          (as.filter p).zip (items.filter q).reverse
  | [], items, _, _ => rfl
  | a :: as, items, own, other => by
    have later (items : List β) := filter_pairs_pickLast p items
      (fun a ha => own a (List.mem_cons_of_mem _ ha))
      (fun a ha => other a (List.mem_cons_of_mem _ ha))
    unfold play
    cases hp : pickLast (suits a) items with
    | none =>
      show (play _ as items).pairs.filter _ = _
      rw [later]
      by_cases member : p a = true
      · -- the class is used up, and so it stays
        have gone : items.filter q = [] := by
          rw [← own a List.mem_cons_self member, List.filter_eq_nil_iff]
          exact fun b hb => Bool.eq_false_iff.mp (pickLast_none hp b hb)
        rw [gone, List.reverse_nil, List.zip_nil_right, List.zip_nil_right]
      · rw [List.filter_cons_of_neg member]
    | some found =>
      obtain ⟨b, rest⟩ := found
      show ((a, b) :: (play _ as rest).pairs).filter _ = _
      rw [List.filter_cons, List.filter_cons, later]
      by_cases member : p a = true
      · have mine := own a List.mem_cons_self member
        have last : items.filter q = rest.filter q ++ [b] := mine ▸ filter_of_pickLast hp
        rw [if_pos member, if_pos member, last, List.reverse_append]
        rfl
      · have suited : suits a b = true := by
          obtain ⟨_, _, _, _, suited, _⟩ := pickLast_some hp
          exact suited
        have foreign := other a List.mem_cons_self (Bool.eq_false_iff.mpr member) b suited
        rw [if_neg member, if_neg member, filter_of_pickLast_foreign hp foreign]

end Round

/-! ### Classes of fragments -/

theorem Criteria.signaturesAgree_iff {o o' : Option String} :
    signaturesAgree o o' = true ↔
      ∃ s, Text.isBlankText s = false ∧ o = some s ∧ o' = some s := by
  cases o with
  | none => simp [signaturesAgree]
  | some s =>
    cases o' with
    | none => simp [signaturesAgree]
    | some t =>
      rw [signaturesAgree]
      constructor
      · intro agree
        simp only [Bool.and_eq_true, Bool.not_eq_true', beq_iff_eq] at agree
        obtain ⟨⟨filled, -⟩, rfl⟩ := agree
        exact ⟨s, filled, rfl, rfl⟩
      · rintro ⟨u, filled, hs, ht⟩
        simp [Option.some.inj hs, Option.some.inj ht, filled]

namespace Fragment

/-- The places of the fragments that have a signature, in the order of the list. -/
def placesSigned (s : String) (fs : List Fragment) : List Nat :=
  (fs.zipIdx.filter fun f => f.1.signature == some s).map Prod.snd

variable {s s' : String} {fs : List Fragment} {i : Nat}

theorem mem_placesSigned :
    i ∈ placesSigned s fs ↔ ∃ f, fs[i]? = some f ∧ f.signature = some s := by
  simp [placesSigned, List.mem_zipIdx_iff_getElem?]

theorem eq_of_mem_placesSigned (h : i ∈ placesSigned s fs) (h' : i ∈ placesSigned s' fs) :
    s = s' := by
  obtain ⟨f, hf, signed⟩ := mem_placesSigned.mp h
  obtain ⟨f', hf', signed'⟩ := mem_placesSigned.mp h'
  cases hf.symm.trans hf'
  exact Option.some.inj (signed.symm.trans signed')

end Fragment

namespace Matching

open Fragment (placesSigned mem_placesSigned eq_of_mem_placesSigned)

section Signed

variable {sources targets : List Fragment} {carried : List ((Fragment × Nat) × List Range)}
  (standard : ∀ f ∈ sources, f.criteria.sameSignature = Criteria.standard.sameSignature)
include standard

theorem sameSignature_iff {f t : Fragment} (hf : f ∈ sources) :
    f.sameSignature t = true ↔
      ∃ s, Text.isBlankText s = false ∧ f.signature = some s ∧ t.signature = some s := by
  rw [Fragment.sameSignature, standard f hf, ← Criteria.signaturesAgree_iff]
  rfl

theorem signs_iff {i j : Nat} :
    Signs sources targets i j ↔ ∃ s, Text.isBlankText s = false ∧
      i ∈ placesSigned s sources ∧ j ∈ placesSigned s targets := by
  constructor
  · rintro ⟨f, t, hf, ht, same⟩
    obtain ⟨s, filled, signed, signed'⟩ :=
      (sameSignature_iff standard (List.mem_of_getElem? hf)).mp same
    exact ⟨s, filled, mem_placesSigned.mpr ⟨f, hf, signed⟩, mem_placesSigned.mpr ⟨t, ht, signed'⟩⟩
  · rintro ⟨s, filled, hi, hj⟩
    obtain ⟨f, hf, signed⟩ := mem_placesSigned.mp hi
    obtain ⟨t, ht, signed'⟩ := mem_placesSigned.mp hj
    exact ⟨f, t, hf, ht, (sameSignature_iff standard (List.mem_of_getElem? hf)).mpr
      ⟨s, filled, signed, signed'⟩⟩

/-- What the sources of a class get in the first round. -/
theorem filter_pairs_bySignature {s : String} (filled : Text.isBlankText s = false) :
    (bySignature sources.zipIdx targets.zipIdx).pairs.filter
        (fun x => x.1.1.signature == some s) =
      (sources.zipIdx.filter fun f => f.1.signature == some s).zip
        (targets.zipIdx.filter fun t => t.1.signature == some s).reverse := by
  have mem {f : Fragment × Nat} (hf : f ∈ sources.zipIdx) : f.1 ∈ sources :=
    List.mem_of_getElem? (List.mem_zipIdx_iff_getElem?.mp hf)
  unfold bySignature
  apply Round.filter_pairs_pickLast fun f : Fragment × Nat => f.1.signature == some s
  · intro f hf signed
    funext t
    rw [Bool.eq_iff_iff, sameSignature_iff standard (mem hf), beq_iff_eq.mp signed, beq_iff_eq]
    constructor
    · rintro ⟨s', -, e, signed'⟩
      rw [signed', ← e]
    · exact fun signed' => ⟨s, filled, rfl, signed'⟩
  · intro f hf unsigned t same
    obtain ⟨s', -, signed, signed'⟩ := (sameSignature_iff standard (mem hf)).mp same
    rw [signed', ← signed]
    exact unsigned

/-- The sources of a class are linked, from the first one on, to the targets of the class, from
the last one on. -/
theorem mem_zip_iff {s : String} (filled : Text.isBlankText s = false) {i j : Nat} :
    (i, j) ∈ (placesSigned s sources).zip (placesSigned s targets).reverse ↔
      ⟨i, j, .signature⟩ ∈ linksWith sources targets carried ∧ i ∈ placesSigned s sources := by
  have first := fair_bySignature sources targets
  have places : (placesSigned s sources).zip (placesSigned s targets).reverse =
      ((bySignature sources.zipIdx targets.zipIdx).pairs.filter
        fun x => x.1.1.signature == some s).map (Prod.map Prod.snd Prod.snd) := by
    rw [filter_pairs_bySignature standard filled, ← List.zip_map, List.map_reverse]
    rfl
  rw [places, linksWith, mem_linksOf_signature, mem_placesSigned]
  constructor
  · intro h
    obtain ⟨⟨⟨f, i⟩, t, j⟩, mem, ⟨⟩⟩ := List.mem_map.mp h
    obtain ⟨paired, signed⟩ := List.mem_filter.mp mem
    have hf := List.mem_zipIdx_iff_getElem?.mp (first.mem_pickers paired)
    exact ⟨⟨f, t, paired⟩, f, hf, beq_iff_eq.mp signed⟩
  · rintro ⟨⟨f, t, paired⟩, f', hf', signed⟩
    have hf := List.mem_zipIdx_iff_getElem?.mp (first.mem_pickers paired)
    cases hf.symm.trans hf'
    exact List.mem_map.mpr
      ⟨((f, i), (t, j)), List.mem_filter.mpr ⟨paired, beq_iff_eq.mpr signed⟩, rfl⟩

/-- In a class with no more sources than targets all sources are linked, and in one with no more
targets than sources all targets are. -/
theorem exists_link_of_signed {s : String} (filled : Text.isBlankText s = false) :
    ((placesSigned s sources).length ≤ (placesSigned s targets).length →
      ∀ i ∈ placesSigned s sources, ∃ j, ⟨i, j, .signature⟩ ∈ linksWith sources targets carried) ∧
    ((placesSigned s targets).length ≤ (placesSigned s sources).length →
      ∀ j ∈ placesSigned s targets, ∃ i ∈ placesSigned s sources,
        ⟨i, j, .signature⟩ ∈ linksWith sources targets carried) := by
  have length : (placesSigned s targets).reverse.length = (placesSigned s targets).length :=
    List.length_reverse
  constructor
  · intro le i hi
    have all : ((placesSigned s sources).zip (placesSigned s targets).reverse).map Prod.fst =
        placesSigned s sources := List.map_fst_zip (by omega)
    rw [← all] at hi
    obtain ⟨⟨i, j⟩, mem, rfl⟩ := List.mem_map.mp hi
    exact ⟨j, ((mem_zip_iff standard filled).mp mem).1⟩
  · intro le j hj
    have all : ((placesSigned s sources).zip (placesSigned s targets).reverse).map Prod.snd =
        (placesSigned s targets).reverse := List.map_snd_zip (by omega)
    rw [← List.mem_reverse, ← all] at hj
    obtain ⟨⟨i, j⟩, mem, rfl⟩ := List.mem_map.mp hj
    obtain ⟨linked, hi⟩ := (mem_zip_iff standard filled).mp mem
    exact ⟨i, hi, linked⟩

/-- Sources and targets of one class each, every source and every target once, are not more pairs
than are linked by signature. -/
theorem length_le_signed (once : (linksWith sources targets carried |>.map Link.source).Nodup)
    {pairs : List (Nat × Nat)} (sourcesOnce : (pairs.map Prod.fst).Nodup)
    (targetsOnce : (pairs.map Prod.snd).Nodup)
    (respects : ∀ x ∈ pairs, Signs sources targets x.1 x.2) :
    pairs.length ≤
      ((linksWith sources targets carried).filter fun l => l.kind == .signature).length := by
  have distinct :
      ((linksWith sources targets carried).filter fun l => l.kind == .signature).Nodup :=
    once.of_map.filter _
  rw [← List.toFinset_card_of_nodup sourcesOnce.of_map, ← List.toFinset_card_of_nodup distinct]
  -- a pair goes with the link of its source or its target, whichever side of the class is used up
  apply Finset.card_le_card_of_forall_subsingleton fun (x : Nat × Nat) (l : Link) =>
    ∃ s, x.1 ∈ placesSigned s sources ∧ l.source ∈ placesSigned s sources ∧
      if (placesSigned s sources).length ≤ (placesSigned s targets).length then l.source = x.1
      else l.target = x.2
  · intro x hx
    obtain ⟨s, filled, hi, hj⟩ := (signs_iff standard).mp (respects x (List.mem_toFinset.mp hx))
    have listed {l : Link} (h : l ∈ linksWith sources targets carried)
        (kind : l.kind = .signature) :
        l ∈ ((linksWith sources targets carried).filter fun l => l.kind == .signature).toFinset :=
      List.mem_toFinset.mpr (List.mem_filter.mpr ⟨h, beq_iff_eq.mpr kind⟩)
    obtain ⟨short, long⟩ := @exists_link_of_signed sources targets carried standard s filled
    by_cases le : (placesSigned s sources).length ≤ (placesSigned s targets).length
    · obtain ⟨j, linked⟩ := short le x.1 hi
      exact ⟨_, listed linked rfl, s, hi, hi, by rw [if_pos le]⟩
    · obtain ⟨i, hi', linked⟩ := long (Nat.le_of_not_le le) x.2 hj
      exact ⟨_, listed linked rfl, s, hi, hi', by rw [if_neg le]⟩
  · rintro l - x ⟨hx, s, -, hl, same⟩ y ⟨hy, s', -, hl', same'⟩
    cases eq_of_mem_placesSigned hl hl'
    have hx := List.mem_toFinset.mp hx
    have hy := List.mem_toFinset.mp hy
    by_cases le : (placesSigned s sources).length ≤ (placesSigned s targets).length
    · rw [if_pos le] at same same'
      exact List.inj_on_of_nodup_map sourcesOnce hx hy (same.symm.trans same')
    · rw [if_neg le] at same same'
      exact List.inj_on_of_nodup_map targetsOnce hx hy (same.symm.trans same')

end Signed

end Matching

/-- By the standard criterion the fragments with one signature that is not blank, the first ones
among the sources and the last ones among the targets, are linked to each other: the first source
to the last target, the second one to the last but one, and so on until one side is used up. There
are no other links by signature, so no fragment with a blank signature or none has one. And as many
are linked as could be if every source and every target had one link at most, and only to a
signature that is recognised. -/
theorem Matcher.map_signed {matcher next : Matcher} {sources targets : List (Option Fragment)}
    {step : Step} {m : Matching} {a b : Archive}
    (h : (matcher.map sources targets step).run a = ((.ok m, next), b))
    (standard : ∀ f ∈ Fragment.distinct sources,
      f.criteria.sameSignature = Criteria.standard.sameSignature) :
    let before := Fragment.distinct sources
    let behind := Fragment.distinct targets
    m.sources = before.map some ∧ m.targets = behind.map some ∧
      (∀ s, Text.isBlankText s = false → ∀ i j,
        ⟨i, j, .signature⟩ ∈ m.links ∧
            (i ∈ Fragment.placesSigned s before ∨ j ∈ Fragment.placesSigned s behind) ↔
          (i, j) ∈ (Fragment.placesSigned s before).zip (Fragment.placesSigned s behind).reverse) ∧
      (∀ i j, ⟨i, j, .signature⟩ ∈ m.links → ∃ s, Text.isBlankText s = false ∧
        i ∈ Fragment.placesSigned s before ∧ j ∈ Fragment.placesSigned s behind) ∧
      ∀ pairs : List (Nat × Nat), (pairs.map Prod.fst).Nodup → (pairs.map Prod.snd).Nodup →
        (∀ x ∈ pairs, Matching.Signs before behind x.1 x.2) →
          pairs.length ≤ (m.links.filter fun l => l.kind == .signature).length := by
  intro before behind
  obtain ⟨carried, hc, -, rfl⟩ := carried_of_map h
  have signed {i j : Nat}
      (linked : ⟨i, j, .signature⟩ ∈ Matching.linksWith before behind carried) :=
    (Matching.signs_iff standard).mp (Matching.rule_signature linked).1
  refine ⟨rfl, rfl, fun s filled i j => ?_, fun i j linked => signed linked, ?_⟩
  · rw [Matching.mem_zip_iff standard filled]
    refine ⟨fun ⟨linked, side⟩ => ⟨linked, ?_⟩, fun ⟨linked, hi⟩ => ⟨linked, .inl hi⟩⟩
    obtain ⟨s', -, hi, hj⟩ := signed linked
    rcases side with hi' | hj'
    · exact hi'
    · rwa [Fragment.eq_of_mem_placesSigned hj' hj]
  · intro pairs sourcesOnce targetsOnce respects
    exact Matching.length_le_signed standard (Matching.sources_linksWith hc) sourcesOnce
      targetsOnce respects

/-- Three sources and two targets with one signature, and one of each with a blank one, which are
linked by position. -/
theorem Matcher.map_signed_blank :
    let old := Range.ofFirst ⟨⟨"a", "r1"⟩, .memory ['x']⟩
    let new := Range.ofFirst ⟨⟨"a", "r2"⟩, .memory ['x']⟩
    let source (handle : Nat) (s : String) := Fragment.basic handle [old] (some s) .null
    let target (handle : Nat) (s : String) := Fragment.basic handle [new] (some s) .null
    let before := [source 0 "s", source 1 " ", source 2 "s", source 3 "s"]
    let behind := [target 4 "s", target 5 " ", target 6 "s"]
    let matched := (Matcher.make []).map (before.map some) (behind.map some)
      ⟨1, "r2", some "r1", [], []⟩
    let links : List Link := [⟨0, 2, .signature⟩, ⟨2, 0, .signature⟩, ⟨1, 1, .position⟩]
    (matched.run Archive.empty).1 = (.ok ⟨1, before.map some, behind.map some, links⟩, ⟨behind⟩) ∧
      (∀ f ∈ before, f.criteria.sameSignature = Criteria.standard.sameSignature) ∧
      (∀ i j, ⟨i, j, .signature⟩ ∈ links ∧ (i ∈ [0, 2, 3] ∨ j ∈ [0, 2]) ↔
        (i, j) ∈ [(0, 2), (2, 0)]) ∧
      [(2, 2), (3, 0)].length ≤ (links.filter fun l => l.kind == .signature).length := by
  intro old new source target before behind matched links
  have h : matched.run Archive.empty =
      ((.ok ⟨1, before.map some, behind.map some, links⟩, ⟨behind⟩),
        (matched.run Archive.empty).2) := rfl
  have standard : ∀ f ∈ before, f.criteria.sameSignature = Criteria.standard.sameSignature := by
    simp [before, source, Fragment.basic]
  obtain ⟨-, -, classes, -, most⟩ := map_signed h standard
  refine ⟨congrArg Prod.fst h, standard, classes "s" rfl,
    most [(2, 2), (3, 0)] (by decide) (by decide) fun x hx => ?_⟩
  rcases List.mem_pair.mp hx with rfl | rfl
  · exact ⟨source 2 "s", target 6 "s", rfl, rfl, rfl⟩
  · exact ⟨source 3 "s", target 4 "s", rfl, rfl, rfl⟩

end Lineage
