/-
# Ranges that agree

Ranges agree with as many others if each of them lies where one of the others lies. That is less
than to lie in the same places equally often, but it is the same for ranges that lie in different
places: they take up as many places as the others are, so none is left over for a second one of
these (`Criteria.rangesAgree_iff_perm`). And it is the same for no others: of two ranges in one
place one can be exchanged for a range elsewhere, and they still agree
(`Criteria.exists_agree_of_repeated`).

Key theorems: `Criteria.rangesAgree_iff`, `Criteria.rangesAgree_iff_perm`,
`Criteria.sameRanges_exact`.
-/
import Lineage.Fragment
import Mathlib.Data.List.Perm.Subperm
import Mathlib.Data.Multiset.Basic

namespace Lineage

/-- The places in which ranges lie, each as often as a range lies there. -/
def Range.places (rs : List Range) : Multiset Span :=
  (rs.map Range.span : List Span)

/-- The range that ends one offset later. -/
def Range.widened (r : Range) : Range :=
  have nonneg : 0 ≤ r.last.offset + 1 := Int.le_add_one r.last.offset_nonneg
  ⟨r.first, { r.last with offset := r.last.offset + 1, offset_nonneg := nonneg }, r.sameVersion,
    Int.le_add_one r.first_le_last⟩

theorem Range.span_widened_ne (r : Range) : r.widened.span ≠ r.span := by
  intro same
  have last : r.last.offset + 1 = r.last.offset := congrArg Span.last same
  omega

namespace Criteria

variable {rs ss : List Range}

/-- Ranges agree if they are as many and lie in places of the others. -/
theorem rangesAgree_iff :
    rangesAgree rs ss = true ↔
      rs.length = ss.length ∧ rs.map Range.span ⊆ ss.map Range.span := by
  unfold rangesAgree
  rw [Bool.and_eq_true, beq_iff_eq, List.all_eq_true]
  refine and_congr_right fun _ => ⟨fun all x hx => ?_, fun sub r hr => ?_⟩
  · obtain ⟨r, hr, rfl⟩ := List.mem_map.mp hx
    obtain ⟨s, hs, same⟩ := List.any_eq_true.mp (all r hr)
    exact List.mem_map.mpr ⟨s, hs, (beq_iff_eq.mp same).symm⟩
  · obtain ⟨s, hs, same⟩ := List.mem_map.mp (sub (List.mem_map_of_mem hr))
    exact List.any_eq_true.mpr ⟨s, hs, beq_iff_eq.mpr same.symm⟩

theorem rangesAgree_of_perm (h : (rs.map Range.span).Perm (ss.map Range.span)) :
    rangesAgree rs ss = true := by
  have length := h.length_eq
  rw [List.length_map, List.length_map] at length
  exact rangesAgree_iff.mpr ⟨length, h.subset⟩

/-- Ranges in different places agree with those that lie in the same places and no others. -/
theorem rangesAgree_iff_perm (distinct : (rs.map Range.span).Nodup) :
    rangesAgree rs ss = true ↔ (rs.map Range.span).Perm (ss.map Range.span) := by
  refine ⟨fun agree => ?_, rangesAgree_of_perm⟩
  obtain ⟨length, sub⟩ := rangesAgree_iff.mp agree
  apply (List.subperm_of_subset distinct sub).perm_of_length_le
  rw [List.length_map, List.length_map, length]

/-- If two ranges lie in one place, one of them is left when the other one is taken out. -/
theorem exists_repeated : ∀ {rs : List Range}, ¬ (rs.map Range.span).Nodup →
    ∃ r rest, rs.Perm (r :: rest) ∧ r.span ∈ rest.map Range.span
  | [], h => absurd List.nodup_nil h
  | r :: rs, h => by
    by_cases again : r.span ∈ rs.map Range.span
    · exact ⟨r, rs, .refl _, again⟩
    · rw [List.map_cons, List.nodup_cons, and_iff_right again] at h
      obtain ⟨s, rest, perm, mem⟩ := exists_repeated h
      exact ⟨s, r :: rest, (perm.cons r).trans (.swap s r rest), List.mem_cons_of_mem _ mem⟩

/-- Ranges of which two lie in one place agree with some that do not lie in the same places. -/
theorem exists_agree_of_repeated (h : ¬ (rs.map Range.span).Nodup) :
    ∃ ss, rangesAgree rs ss = true ∧ ¬ (rs.map Range.span).Perm (ss.map Range.span) := by
  obtain ⟨r, rest, perm, again⟩ := exists_repeated h
  have spans := perm.map Range.span
  refine ⟨r.widened :: rest, rangesAgree_iff.mpr ⟨perm.length_eq, fun x hx => ?_⟩, fun same => ?_⟩
  · rcases List.mem_cons.mp (spans.subset hx) with rfl | hx
    · exact List.mem_cons_of_mem _ again
    · exact List.mem_cons_of_mem _ hx
  · have ends : [r.span].Perm [r.widened.span] :=
      (List.perm_append_right_iff _).mp (spans.symm.trans same)
    exact r.span_widened_ne (List.singleton_perm_singleton.mp ends).symm

/-- The standard criterion for ranges, for a finding that is to be recognised by the given ranges
in another one. It is exact, in that it says whether the others lie in the same places equally
often, for just those lists in which no two ranges lie in one place. In any case it recognises
ranges that lie in the same places equally often; so where it recognises others, two of the given
ranges lie in one place. -/
theorem sameRanges_exact (f : Finding) (ranges : List Range) :
    ((Range.places ranges).Nodup ↔ ∀ g : Finding,
      standard.sameRanges f ranges (some g) = true ↔
        Range.places ranges = Range.places g.ranges) ∧
    (∀ g : Finding, Range.places ranges = Range.places g.ranges →
      standard.sameRanges f ranges (some g) = true) ∧
    ∀ g : Finding, standard.sameRanges f ranges (some g) = true →
      Range.places ranges ≠ Range.places g.ranges →
        ∃ (i j : Nat) (r s : Range), i < j ∧ ranges[i]? = some r ∧ ranges[j]? = some s ∧
          r.span = s.span := by
  have agrees (g : Finding) :
      standard.sameRanges f ranges (some g) = rangesAgree ranges g.ranges := rfl
  have same (g : Finding) : Range.places ranges = Range.places g.ranges ↔
      (ranges.map Range.span).Perm (g.ranges.map Range.span) := Multiset.coe_eq_coe
  have once : (Range.places ranges).Nodup ↔ (ranges.map Range.span).Nodup := Multiset.coe_nodup
  refine ⟨⟨fun distinct g => ?_, fun exact => ?_⟩, fun g lie => ?_, fun g agree differ => ?_⟩
  · rw [agrees, same]
    exact rangesAgree_iff_perm (once.mp distinct)
  · by_contra repeated
    obtain ⟨ss, agree, differ⟩ := exists_agree_of_repeated fun h => repeated (once.mpr h)
    let g : Finding := ⟨f.handle, ss, none, .null⟩
    exact differ ((same g).mp ((exact g).mp agree))
  · exact rangesAgree_of_perm ((same g).mp lie)
  · have repeated : ¬ (ranges.map Range.span).Nodup := fun distinct =>
      differ ((same g).mpr ((rangesAgree_iff_perm distinct).mp agree))
    rw [List.Nodup, List.pairwise_iff_getElem] at repeated
    push Not at repeated
    obtain ⟨i, j, hi, hj, lt, e⟩ := repeated
    rw [List.getElem_map, List.getElem_map] at e
    exact ⟨i, j, _, _, lt, List.getElem?_eq_getElem _, List.getElem?_eq_getElem _, e⟩

/-- Two ranges in one place are recognised in two ranges one of which lies elsewhere, but not the
other way round; and in another order ranges are recognised. -/
theorem sameRanges_exact_repeated :
    let file (path : String) : File := ⟨⟨path, "r1"⟩, .memory []⟩
    let letter (path : String) (n : Nat) : Range :=
      let place : Position := ⟨⟨1, 1 + n, n, n, Int.le_refl 1,
        Int.le_add_of_nonneg_right (Int.natCast_nonneg n), Int.natCast_nonneg n,
        Int.natCast_nonneg n⟩, file path, 4, by decide⟩
      ⟨place, place, rfl, Int.le_refl _⟩
    let found (ranges : List Range) : Finding := ⟨0, ranges, none, .null⟩
    let r := letter "a" 1
    let s := letter "b" 1
    let f := found [r]
    standard.sameRanges f [r, s] (some (found [s, r])) = true ∧
      standard.sameRanges f [r, s] (some (found [r, r])) = false ∧
      standard.sameRanges f [r, r] (some (found [r, s])) = true ∧
      ∃ (i j : Nat) (t u : Range), i < j ∧ [r, r][i]? = some t ∧ [r, r][j]? = some u ∧
        t.span = u.span := by
  intro file letter found r s f
  obtain ⟨exact, recognised, -⟩ := sameRanges_exact f [r, s]
  obtain ⟨-, -, repeated⟩ := sameRanges_exact f [r, r]
  have same : Range.places [r, s] = Range.places [s, r] := by decide
  have differ : Range.places [r, s] ≠ Range.places [r, r] := by decide
  have twice : standard.sameRanges f [r, r] (some (found [r, s])) = true := by decide
  refine ⟨recognised (found [s, r]) same, ?_, twice, repeated _ twice differ.symm⟩
  rw [Bool.eq_false_iff]
  exact fun agree => differ ((exact.mp (by decide) (found [r, r])).mp agree)

end Criteria
end Lineage
