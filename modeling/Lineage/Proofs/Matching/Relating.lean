/-
# Steps that come out the same

A round comes out the same for other pickers and other items if everyone sees no difference:
then everyone picks at the same places. The standard criteria, and criteria that are settled
beforehand, see what fragments hold and where their ranges lie, but not how these places were
found nor in which order they come. So a step makes the same links between fragments that
look alike.

Two fragments are alike if they differ at most in the order of their ranges. Where each
fragment is replaced by one alike, and each list of carried ranges by the same ranges in
another order, the links are the same (`Matching.linksWith_alike`).

Key definitions: `Round.Related`, `Fragment.LooksLike`, `Matching.Unseen`, `Fragment.Alike`.
Key theorems: `Round.play_related`, `Matching.bySignature_related`,
`Matching.byPosition_related`, `Matching.linksWith_alike`, `Matching.Acceptable.of_looksLike`.
-/
import Lineage.Proofs.Matching.Succeeding
import Mathlib.Data.List.Forall2

namespace Lineage

/-! ### Rounds -/

namespace Round

variable {α α' β β' : Type} {R : α → α' → Prop} {S : β → β' → Prop}

/-- Two rounds that come out the same, up to relations between the pickers and between the
items of both. -/
structure Related (R : α → α' → Prop) (S : β → β' → Prop) (r : Round α β) (r' : Round α' β') :
    Prop where
  pairs : List.Forall₂ (fun p p' => R p.1 p'.1 ∧ S p.2 p'.2) r.pairs r'.pairs
  unpaired : List.Forall₂ R r.unpaired r'.unpaired
  left : List.Forall₂ S r.left r'.left

/-- Two turns that come out the same, up to a relation between the items. -/
abbrev SamePick (S : β → β' → Prop) : Option (β × List β) → Option (β' × List β') → Prop :=
  Option.Rel fun x y => S x.1 y.1 ∧ List.Forall₂ S x.2 y.2

section Picks

variable {suits : β → Bool} {suits' : β' → Bool} (same : ∀ b b', S b b' → suits b = suits' b')
include same

theorem pickFirst_related {bs : List β} {bs' : List β'} (items : List.Forall₂ S bs bs') :
    SamePick S (pickFirst suits bs) (pickFirst suits' bs') := by
  induction items with
  | nil => exact .none
  | @cons b b' bs bs' h rest ih =>
    unfold pickFirst
    rw [same b b' h]
    by_cases suited : suits' b' = true
    · rw [if_pos suited, if_pos suited]
      exact .some ⟨h, rest⟩
    · rw [if_neg suited, if_neg suited]
      generalize pickFirst suits bs = x at ih
      generalize pickFirst suits' bs' = y at ih
      cases ih with
      | none => exact .none
      | some found => exact .some ⟨found.1, .cons h found.2⟩

theorem pickLast_related {bs : List β} {bs' : List β'} (items : List.Forall₂ S bs bs') :
    SamePick S (pickLast suits bs) (pickLast suits' bs') := by
  induction items with
  | nil => exact .none
  | @cons b b' bs bs' h rest ih =>
    unfold pickLast
    generalize pickLast suits bs = x at ih
    generalize pickLast suits' bs' = y at ih
    cases ih with
    | none =>
      dsimp only
      rw [same b b' h]
      by_cases suited : suits' b' = true
      · rw [if_pos suited, if_pos suited]
        exact .some ⟨h, rest⟩
      · rw [if_neg suited, if_neg suited]
        exact .none
    | some found => exact .some ⟨found.1, .cons h found.2⟩

end Picks

/-- Rounds come out the same if every turn does. -/
theorem play_related {pick : α → List β → Option (β × List β)}
    {pick' : α' → List β' → Option (β' × List β')}
    (picks : ∀ a a', R a a' → ∀ bs bs', List.Forall₂ S bs bs' →
      SamePick S (pick a bs) (pick' a' bs')) {as : List α} {as' : List α'} {bs : List β}
    {bs' : List β'} (pickers : List.Forall₂ R as as') (items : List.Forall₂ S bs bs') :
    Related R S (play pick as bs) (play pick' as' bs') := by
  induction pickers generalizing bs bs' with
  | nil => exact ⟨.nil, .nil, items⟩
  | @cons a a' as as' h _ ih =>
    have turn := picks a a' h bs bs' items
    unfold play
    generalize pick a bs = x at turn
    generalize pick' a' bs' = y at turn
    cases turn with
    | none =>
      have others := ih items
      exact ⟨others.pairs, .cons h others.unpaired, others.left⟩
    | some found =>
      have others := ih found.2
      exact ⟨.cons ⟨h, found.1⟩ others.pairs, others.unpaired, others.left⟩

end Round

/-! ### Fragments that look alike -/

/-- Ranges that lie in the same places agree with the same ranges, in whatever order. -/
theorem Criteria.rangesAgree_congr {rs rs' ss ss' : List Range}
    (h : (rs.map Range.span).Perm (rs'.map Range.span))
    (h' : (ss.map Range.span).Perm (ss'.map Range.span)) :
    rangesAgree rs ss = rangesAgree rs' ss' := by
  have bySpans : ∀ rs ss : List Range, rangesAgree rs ss =
      ((rs.map Range.span).length == (ss.map Range.span).length &&
        (rs.map Range.span).all fun x => (ss.map Range.span).any fun y => x == y) := by
    intro rs ss
    simp [rangesAgree, Function.comp_def]
  rw [bySpans, bySpans, h.length_eq, h'.length_eq, h.all_eq]
  congr 2
  funext x
  exact h'.any_eq

namespace Fragment

/-- The criteria of a fragment are the standard ones or constant. -/
def Plain (f : Fragment) : Prop :=
  ∃ x y z, f.criteria = .settled x y z

/-- Fragments that hold the same and whose ranges lie in the same places, in whatever order. -/
structure LooksLike (f f' : Fragment) : Prop where
  signature : f.signature = f'.signature
  metadata : f.metadata = f'.metadata
  criteria : f.criteria = f'.criteria
  spans : (f.ranges.map Range.span).Perm (f'.ranges.map Range.span)
  revisions : (f.ranges.map fun r => r.file.version.revision).Perm
    (f'.ranges.map fun r => r.file.version.revision)

variable {f f' t t' : Fragment}

theorem LooksLike.symm (h : f.LooksLike f') : f'.LooksLike f :=
  ⟨h.signature.symm, h.metadata.symm, h.criteria.symm, h.spans.symm, h.revisions.symm⟩

section Criteria

variable (h : f.LooksLike f') (h' : t.LooksLike t') (plain : f.Plain)
include h h' plain

theorem LooksLike.compatible_eq : f.compatible t = f'.compatible t' := by
  obtain ⟨x, y, z, own⟩ := plain
  unfold compatible
  rw [← h.criteria, own]
  simp only [Criteria.settled, Criteria.standard, Option.any_some, h.metadata, h'.metadata]

theorem LooksLike.sameSignature_eq : f.sameSignature t = f'.sameSignature t' := by
  obtain ⟨x, y, z, own⟩ := plain
  unfold sameSignature
  rw [← h.criteria, own]
  simp only [Criteria.settled, Criteria.standard, Option.any_some, h.signature, h'.signature]

theorem LooksLike.sameRanges_eq {rs rs' : List Range}
    (same : (rs.map Range.span).Perm (rs'.map Range.span)) :
    f.sameRanges rs t = f'.sameRanges rs' t' := by
  obtain ⟨x, y, z, own⟩ := plain
  unfold sameRanges
  rw [← h.criteria, own]
  simp only [Criteria.settled, Criteria.standard, Option.any_some,
    Criteria.rangesAgree_congr same h'.spans]

end Criteria

section Distinct

variable {R : Fragment → Fragment → Prop} {rename : Nat → Nat} (inj : rename.Injective)
  (handles : ∀ f f', R f f' → f'.handle = rename f.handle)
include inj handles

/-- Fragments are told apart under other handles as they were before. -/
theorem keepFirst_related (seen : List Nat) {fs fs' : List Fragment} (h : List.Forall₂ R fs fs') :
    List.Forall₂ R (keepFirst seen fs) (keepFirst (seen.map rename) fs') := by
  induction h generalizing seen with
  | nil => exact .nil
  | @cons f f' fs fs' same _ ih =>
    have known_iff : f'.handle ∈ seen.map rename ↔ f.handle ∈ seen := by
      rw [handles f f' same, List.mem_map_of_injective inj]
    unfold keepFirst
    by_cases known : f.handle ∈ seen
    · rw [if_pos known, if_pos (known_iff.mpr known)]
      exact ih seen
    · rw [if_neg known, if_neg fun h => known (known_iff.mp h), handles f f' same]
      exact .cons same (ih (f.handle :: seen))

theorem distinct_related {fs fs' : List (Option Fragment)}
    (h : List.Forall₂ (Option.Rel R) fs fs') : List.Forall₂ R (distinct fs) (distinct fs') :=
  keepFirst_related inj handles [] (List.rel_filterMap (fun _ _ same => same) h)

end Distinct
end Fragment

namespace Matching

theorem forall_of_forall₂ {α β : Type} {R : α → β → Prop} {P : α → Prop} {Q : β → Prop}
    (keeps : ∀ x y, R x y → P x → Q y) {xs : List α} {ys : List β} (h : List.Forall₂ R xs ys)
    (all : ∀ x ∈ xs, P x) : ∀ y ∈ ys, Q y := by
  induction h with
  | nil => simp
  | @cons x y xs ys first rest ih =>
    obtain ⟨hx, all⟩ := List.forall_mem_cons.mp all
    exact List.forall_mem_cons.mpr ⟨keeps x y first hx, ih all⟩

theorem forall₂_of_mem {α β : Type} {R S : α → β → Prop} {xs : List α} {ys : List β}
    (h : List.Forall₂ R xs ys) (imp : ∀ x ∈ xs, ∀ y ∈ ys, R x y → S x y) :
    List.Forall₂ S xs ys := by
  obtain ⟨length, all⟩ := List.forall₂_iff_zip.mp h
  refine List.forall₂_iff_zip.mpr ⟨length, fun {x y} mem => ?_⟩
  exact imp x (List.of_mem_zip mem).1 y (List.of_mem_zip mem).2 (all mem)

/-- A step asks the same of fragments that look alike. -/
theorem Acceptable.of_looksLike {sources sources' targets targets' : List Fragment}
    {step step' : Step} (looks : List.Forall₂ Fragment.LooksLike sources sources')
    (looks' : List.Forall₂ Fragment.LooksLike targets targets')
    (revision : step.revision = step'.revision)
    (predecessor : step.predecessor = step'.predecessor)
    (h : Acceptable sources targets step) : Acceptable sources' targets' step' := by
  -- what holds of the revisions of all ranges does not depend on their order
  have all_in : ∀ {revision : String} {f f' : Fragment}, f.LooksLike f' →
      (∀ r ∈ f.ranges, r.file.version.revision = revision) →
        ∀ r ∈ f'.ranges, r.file.version.revision = revision := by
    intro revision f f' look all r hr
    obtain ⟨s, hs, same⟩ :=
      List.mem_map.mp (look.revisions.mem_iff.mpr (List.mem_map_of_mem hr))
    exact same ▸ all s hs
  refine ⟨?_, ?_, fun some => ?_⟩
  · refine forall_of_forall₂ (fun f f' look some none => some ?_) (List.rel_append looks looks')
      h.ranges
    have empty := look.spans
    rw [none] at empty
    exact List.map_eq_nil_iff.mp empty.eq_nil
  · exact forall_of_forall₂ (fun f f' look all => all_in look (revision ▸ all)) looks' h.targets
  · have some : sources ≠ [] := fun none => some (by cases none ▸ looks; rfl)
    obtain ⟨revision, given, all⟩ := h.sources some
    exact ⟨revision, predecessor ▸ given,
      forall_of_forall₂ (fun f f' look => all_in look) looks all⟩

/-! ### Links -/

theorem map_eq_of_forall₂ {α β γ : Type} {R : α → β → Prop} {f : α → γ} {g : β → γ}
    (same : ∀ x y, R x y → f x = g y) {xs : List α} {ys : List β} (h : List.Forall₂ R xs ys) :
    xs.map f = ys.map g := by
  induction h with
  | nil => rfl
  | cons first _ ih => rw [List.map_cons, List.map_cons, same _ _ first, ih]

theorem zipIdx_related {α β : Type} {R : α → β → Prop} {k : Nat} {xs : List α} {ys : List β}
    (h : List.Forall₂ R xs ys) :
    List.Forall₂ (fun x y => R x.1 y.1 ∧ x.2 = y.2) (xs.zipIdx k) (ys.zipIdx k) := by
  induction h generalizing k with
  | nil => exact .nil
  | cons same _ ih =>
    rw [List.zipIdx_cons, List.zipIdx_cons]
    exact .cons ⟨same, rfl⟩ ih

/-- A relation between fragments at places that a round does not see: they look alike, and
they stand at the same place. -/
structure Unseen (R : Fragment × Nat → Fragment × Nat → Prop) : Prop where
  looks : ∀ {f f'}, R f f' → f.1.LooksLike f'.1
  place : ∀ {f f'}, R f f' → f.2 = f'.2

section Rounds

variable {R S : Fragment × Nat → Fragment × Nat → Prop}
  {T : (Fragment × Nat) × List Range → (Fragment × Nat) × List Range → Prop}
  (sources : Unseen R) (targets : Unseen S) (plain : ∀ {f f'}, R f f' → f.1.Plain)
  (carried : ∀ {f f'}, T f f' → R f.1 f'.1 ∧ (f.2.map Range.span).Perm (f'.2.map Range.span))

include sources targets plain in
/-- The round by signatures comes out the same. -/
theorem bySignature_related {fs fs' ts ts' : List (Fragment × Nat)}
    (pickers : List.Forall₂ R fs fs') (items : List.Forall₂ S ts ts') :
    (bySignature fs ts).Related R S (bySignature fs' ts') := by
  apply Round.play_related _ pickers items
  intro f f' same bs bs' items
  exact Round.pickLast_related (fun t t' h =>
    (sources.looks same).sameSignature_eq (targets.looks h) (plain same)) items

include sources targets plain carried in
/-- The round by positions comes out the same. -/
theorem byPosition_related {fs fs' : List ((Fragment × Nat) × List Range)}
    {ts ts' : List (Fragment × Nat)} (pickers : List.Forall₂ T fs fs')
    (items : List.Forall₂ S ts ts') : (byPosition fs ts).Related T S (byPosition fs' ts') := by
  apply Round.play_related _ pickers items
  intro f f' same bs bs' items
  obtain ⟨source, spans⟩ := carried same
  refine Round.pickFirst_related (fun t t' h => ?_) items
  rw [(sources.looks source).compatible_eq (targets.looks h) (plain source),
    (sources.looks source).sameRanges_eq (targets.looks h) (plain source) spans]

include sources targets carried in
theorem linksOf_related {first first' : Round (Fragment × Nat) (Fragment × Nat)}
    {second second' : Round ((Fragment × Nat) × List Range) (Fragment × Nat)}
    (h : first.Related R S first') (h' : second.Related T S second') :
    linksOf first second = linksOf first' second' := by
  unfold linksOf
  congr 1
  · apply map_eq_of_forall₂ _ h.pairs
    rintro ⟨f, t⟩ ⟨f', t'⟩ ⟨source, target⟩
    exact congrArg₂ (Link.mk · · _) (sources.place source) (targets.place target)
  · apply map_eq_of_forall₂ _ h'.pairs
    rintro ⟨f, t⟩ ⟨f', t'⟩ ⟨source, target⟩
    exact congrArg₂ (Link.mk · · _) (sources.place (carried source).1) (targets.place target)

end Rounds

end Matching

/-! ### Fragments alike -/

/-- Fragments that differ at most in the order of their ranges, and in how messages show
them. -/
structure Fragment.Alike (f f' : Fragment) : Prop where
  handle : f.handle = f'.handle
  signature : f.signature = f'.signature
  metadata : f.metadata = f'.metadata
  criteria : f.criteria = f'.criteria
  ranges : f.ranges.Perm f'.ranges

namespace Fragment

variable {f f' : Fragment}

theorem Alike.symm (h : f.Alike f') : f'.Alike f :=
  ⟨h.handle.symm, h.signature.symm, h.metadata.symm, h.criteria.symm, h.ranges.symm⟩

theorem Alike.looksLike (h : f.Alike f') : f.LooksLike f' :=
  ⟨h.signature, h.metadata, h.criteria, h.ranges.map _, h.ranges.map _⟩

theorem distinct_alike {fs fs' : List (Option Fragment)}
    (h : List.Forall₂ (Option.Rel Alike) fs fs') :
    List.Forall₂ Alike (distinct fs) (distinct fs') :=
  distinct_related Function.injective_id (fun _ _ same => same.handle.symm) h

end Fragment

namespace Matching

open Fragment (Alike)

/-- Fragments alike at one place. -/
def AlikeAt (f f' : Fragment × Nat) : Prop :=
  f.1.Alike f'.1 ∧ f.2 = f'.2

/-- Sources alike at one place, with criteria that do not see the order of ranges. -/
def SourceAt (f f' : Fragment × Nat) : Prop :=
  f.1.Plain ∧ AlikeAt f f'

/-- Sources like that, carried over to the same ranges in whatever order. -/
def CarriedAt (f f' : (Fragment × Nat) × List Range) : Prop :=
  SourceAt f.1 f'.1 ∧ f.2.Perm f'.2

theorem unseen_alikeAt : Unseen AlikeAt :=
  ⟨fun h => h.1.looksLike, fun h => h.2⟩

theorem unseen_sourceAt : Unseen SourceAt :=
  ⟨fun h => h.2.1.looksLike, fun h => h.2.2⟩

theorem CarriedAt.spans {f f' : (Fragment × Nat) × List Range} (h : CarriedAt f f') :
    SourceAt f.1 f'.1 ∧ (f.2.map Range.span).Perm (f'.2.map Range.span) :=
  ⟨h.1, h.2.map _⟩

section Links

variable {sources sources' targets targets' : List Fragment}
  (alike : List.Forall₂ Alike sources sources') (alike' : List.Forall₂ Alike targets targets')
  (plain : ∀ f ∈ sources, f.Plain)
include alike alike' plain

theorem bySignature_alike :
    (bySignature sources.zipIdx targets.zipIdx).Related SourceAt AlikeAt
      (bySignature sources'.zipIdx targets'.zipIdx) := by
  have pickers : List.Forall₂ SourceAt sources.zipIdx sources'.zipIdx := by
    refine (List.forall₂_and_left _ _).mpr ⟨fun f hf => ?_, zipIdx_related alike⟩
    exact plain f.1 (List.fst_mem_of_mem_zipIdx hf)
  exact bySignature_related unseen_sourceAt unseen_alikeAt (fun h => h.1) pickers
    (zipIdx_related alike')

/-- The links of a step are the same for fragments alike, if they are carried over to the same
ranges. -/
theorem linksWith_alike {carried carried' : List ((Fragment × Nat) × List Range)}
    (same : List.Forall₂ CarriedAt carried carried') :
    linksWith sources targets carried = linksWith sources' targets' carried' := by
  have first := bySignature_alike alike alike' plain
  have second := byPosition_related unseen_sourceAt unseen_alikeAt (fun h => h.1)
    CarriedAt.spans same first.left
  exact linksOf_related unseen_sourceAt unseen_alikeAt CarriedAt.spans first second

end Links
end Matching
end Lineage
