/-
# What ranges cover

A range covers the offsets from its first one up to its last one. Two ranges meet if they
overlap or touch, and that is when there is no gap in what they cover together
(`Range.meets_iff`). Ranges of one version that meet are merged into a range that covers just
that, either way round (`Range.merge_of_meets`).

The length of a list of ranges is found by sweeping over them in the order in which they begin.
A range that the next one does not meet lies before all that follow it, so the lengths that are
added up belong to offsets that have nothing in common (`Range.sweep_eq_ok`). What is in hand
keeps its version all along and is compared with every range in turn, so a range of another
version does not go unnoticed wherever it lies (`Range.sweep_eq_error`).

Key definitions: `Range.offsets`, `Range.covered`, `Range.Meets`.
Key theorems: `Range.meets_iff`, `Range.merge_of_meets`, `Range.sweep_eq_ok`,
`Range.sweep_eq_error`, `Range.unionLength_covered`.
-/
import Lineage.Range
import Mathlib.Data.Finset.Image
import Mathlib.Data.Set.Card

namespace Lineage
namespace Range

/-- The offsets that a range covers: as many as it is long, from its first one on. -/
def offsets (r : Range) : Finset Int :=
  (Finset.range r.length.toNat).image fun n : Nat => r.first.offset + n

/-- The offsets that at least one range of a list covers. -/
def covered : List Range → Finset Int
  | [] => ∅
  | r :: rs => r.offsets ∪ covered rs

/-- Neither of two ranges begins more than one offset behind the end of the other. -/
def Meets (r s : Range) : Prop :=
  r.first.offset ≤ s.last.offset + 1 ∧ s.first.offset ≤ r.last.offset + 1

variable {r s : Range} {rs : List Range} {x : Int}

theorem mem_offsets : x ∈ r.offsets ↔ r.first.offset ≤ x ∧ x ≤ r.last.offset := by
  rw [offsets, length, Finset.mem_image]
  constructor
  · rintro ⟨n, hn, rfl⟩
    have lt := Finset.mem_range.mp hn
    omega
  · rintro ⟨left, right⟩
    exact ⟨(x - r.first.offset).toNat, Finset.mem_range.mpr (by omega), by omega⟩

theorem card_offsets (r : Range) : (r.offsets.card : Int) = r.length := by
  have le := r.first_le_last
  have apart : Function.Injective fun n : Nat => r.first.offset + (n : Int) := by
    intro m n same
    exact Int.ofNat.inj (Int.add_left_cancel same)
  rw [offsets, Finset.card_image_of_injective _ apart, Finset.card_range, length]
  omega

theorem mem_covered : x ∈ covered rs ↔ ∃ r ∈ rs, x ∈ r.offsets := by
  induction rs with
  | nil => simp [covered]
  | cons r rs ih => rw [covered, Finset.mem_union, ih, List.exists_mem_cons_iff]

theorem covered_perm {ss : List Range} (perm : rs.Perm ss) : covered rs = covered ss := by
  ext x
  rw [mem_covered, mem_covered]
  exact exists_congr fun r => and_congr_left' perm.mem_iff

/-! ### Merging two ranges -/

theorem Meets.symm (h : r.Meets s) : s.Meets r :=
  ⟨h.2, h.1⟩

/-- Two ranges meet if and only if there is no gap in what they cover together. -/
theorem meets_iff :
    r.Meets s ↔ ∃ a b, ∀ x, x ∈ r.offsets ∪ s.offsets ↔ a ≤ x ∧ x ≤ b := by
  have hr := r.first_le_last
  have hs := s.first_le_last
  constructor
  · rintro ⟨left, right⟩
    refine ⟨min r.first.offset s.first.offset, max r.last.offset s.last.offset, fun x => ?_⟩
    rw [Finset.mem_union, mem_offsets, mem_offsets]
    omega
  · rintro ⟨a, b, whole⟩
    have mem (x : Int) : (r.first.offset ≤ x ∧ x ≤ r.last.offset ∨
        s.first.offset ≤ x ∧ x ≤ s.last.offset) ↔ a ≤ x ∧ x ≤ b := by
      rw [← mem_offsets, ← mem_offsets, ← Finset.mem_union, whole]
    -- all four ends are covered, and so is what comes right behind the end of either range
    have := mem r.first.offset
    have := mem r.last.offset
    have := mem s.first.offset
    have := mem s.last.offset
    have := mem (r.last.offset + 1)
    have := mem (s.last.offset + 1)
    unfold Meets
    omega

/-- Ranges are joined if the one that begins later begins at most one offset behind the end of
the other. -/
theorem join_of_le {upper lower : Range} (h : upper.file.version = lower.file.version)
    (h' : upper.first.offset ≤ lower.first.offset)
    (le : lower.first.offset ≤ upper.last.offset + 1) :
    ∃ m, join upper lower h h' = some m ∧ m.first = upper.first ∧
      m.last.offset = max upper.last.offset lower.last.offset := by
  unfold join
  rw [if_neg (by omega)]
  split
  next inside => exact ⟨upper, rfl, rfl, by omega⟩
  next beyond => exact ⟨_, rfl, rfl, by show lower.last.offset = _; omega⟩

theorem join_of_lt {upper lower : Range} (h : upper.file.version = lower.file.version)
    (h' : upper.first.offset ≤ lower.first.offset)
    (lt : upper.last.offset + 1 < lower.first.offset) : join upper lower h h' = none :=
  if_pos lt

/-- Ranges that meet are merged into one that begins and ends where the outermost of them do. -/
theorem merge_of_meets (same : r.file.version = s.file.version) (meets : r.Meets s) :
    ∃ m, r.merge s = .ok (some m) ∧ m.file.version = r.file.version ∧
      m.first.offset = min r.first.offset s.first.offset ∧ m.offsets = r.offsets ∪ s.offsets := by
  have covers {m : Range} (first : m.first.offset = min r.first.offset s.first.offset)
      (last : m.last.offset = max r.last.offset s.last.offset) :
      m.offsets = r.offsets ∪ s.offsets := by
    obtain ⟨left, right⟩ := meets
    have hr := r.first_le_last
    have hs := s.first_le_last
    ext x
    rw [Finset.mem_union, mem_offsets, mem_offsets, mem_offsets]
    omega
  unfold merge
  rw [dif_pos same]
  by_cases before : r.first.offset < s.first.offset
  · obtain ⟨m, joined, first, last⟩ := join_of_le same (by omega) meets.2
    have least : m.first.offset = min r.first.offset s.first.offset := by
      rw [first]
      omega
    rw [dif_pos before, joined]
    exact ⟨m, rfl, congrArg (·.file.version) first, least, covers least last⟩
  · obtain ⟨m, joined, first, last⟩ := join_of_le same.symm (by omega) meets.1
    have least : m.first.offset = min r.first.offset s.first.offset := by
      rw [first]
      omega
    rw [dif_neg before, joined]
    exact ⟨m, rfl, (congrArg (·.file.version) first).trans same.symm, least,
      covers least (last.trans (Int.max_comm _ _))⟩

theorem merge_of_not_meets (same : r.file.version = s.file.version) (apart : ¬ r.Meets s) :
    r.merge s = .ok none := by
  have hr := r.first_le_last
  have hs := s.first_le_last
  unfold Meets at apart
  unfold merge
  rw [dif_pos same]
  by_cases before : r.first.offset < s.first.offset
  · rw [dif_pos before, join_of_lt same _ (by omega)]
  · rw [dif_neg before, join_of_lt same.symm _ (by omega)]

theorem merge_of_ne (other : r.file.version ≠ s.file.version) :
    r.merge s = .error (.misuse (.unmergeable r.file.name s.file.name)) :=
  dif_neg other

/-! ### Sweeping over ranges -/

/-- Ranges of one version, in the order in which they begin, are as long together as the number
of offsets that they cover. -/
theorem sweep_eq_ok {version : Version} : ∀ {rs : List Range},
    rs.Pairwise (fun r s => r.first.offset ≤ s.first.offset) →
      (∀ r ∈ rs, r.file.version = version) → sweep rs = .ok (covered rs).card
  | [], _, _ => by simp [sweep, covered]
  | [r], _, _ => by simp [sweep, covered, card_offsets]
  | r :: s :: rest, ordered, same => by
    obtain ⟨first, ordered'⟩ := List.pairwise_cons.mp ordered
    obtain ⟨second, later⟩ := List.pairwise_cons.mp ordered'
    have begins : r.first.offset ≤ s.first.offset := first s List.mem_cons_self
    have alike : r.file.version = s.file.version := by rw [same r (by simp), same s (by simp)]
    rw [sweep]
    by_cases meets : r.Meets s
    · obtain ⟨m, merged, unchanged, least, whole⟩ := merge_of_meets alike meets
      have still : (m :: rest).Pairwise fun r s => r.first.offset ≤ s.first.offset := by
        refine List.pairwise_cons.mpr ⟨fun t ht => ?_, later⟩
        have := second t ht
        omega
      have alike' : ∀ t ∈ m :: rest, t.file.version = version := by
        intro t ht
        rcases List.mem_cons.mp ht with rfl | ht
        · rw [unchanged, same r List.mem_cons_self]
        · exact same t (by simp [ht])
      rw [merged, covered, covered, ← Finset.union_assoc, ← whole]
      exact sweep_eq_ok still alike'
    · have rest' := sweep_eq_ok ordered' fun t ht => same t (List.mem_cons_of_mem r ht)
      -- what follows begins behind the end of the first range
      have apart : Disjoint r.offsets (covered (s :: rest)) := by
        refine Finset.disjoint_left.mpr fun x hx hx' => ?_
        obtain ⟨t, ht, inside⟩ := mem_covered.mp hx'
        have ends := mem_offsets.mp hx
        have starts := mem_offsets.mp inside
        have behind : s.first.offset ≤ t.first.offset := by
          rcases List.mem_cons.mp ht with rfl | ht
          · exact Int.le_refl _
          · exact second t ht
        have hs := s.first_le_last
        unfold Meets at meets
        omega
      rw [merge_of_not_meets alike meets, covered, Finset.card_union_of_disjoint apart]
      show (sweep (s :: rest)).map (r.length + ·) = _
      rw [rest', Nat.cast_add, card_offsets]
      rfl
termination_by rs => rs.length

/-- A range of another version than the first one does not go unnoticed. -/
theorem sweep_eq_error : ∀ {r : Range} {rs : List Range},
    (∃ s ∈ rs, s.file.version ≠ r.file.version) →
      ∃ p ∈ r :: rs, ∃ q ∈ r :: rs, p.file.version ≠ q.file.version ∧
        sweep (r :: rs) = .error (.misuse (.unmergeable p.file.name q.file.name))
  | r, [], other => by simp at other
  | r, s :: rest, ⟨t, ht, other⟩ => by
    by_cases alike : r.file.version = s.file.version
    · have ht : t ∈ rest := by
        rcases List.mem_cons.mp ht with rfl | ht
        · exact absurd alike.symm other
        · exact ht
      rw [sweep]
      by_cases meets : r.Meets s
      · obtain ⟨m, merged, unchanged, -⟩ := merge_of_meets alike meets
        obtain ⟨p, hp, q, hq, differ, failed⟩ :=
          sweep_eq_error (r := m) ⟨t, ht, fun e => other (e.trans unchanged)⟩
        -- the merged range is of the version of the first one, and is named like it
        have given : ∀ p ∈ m :: rest, ∃ p' ∈ r :: s :: rest, p'.file.version = p.file.version := by
          intro p hp
          rcases List.mem_cons.mp hp with rfl | hp
          · exact ⟨r, List.mem_cons_self, unchanged.symm⟩
          · exact ⟨p, by simp [hp], rfl⟩
        obtain ⟨p', hp', ep⟩ := given p hp
        obtain ⟨q', hq', eq⟩ := given q hq
        rw [merged]
        refine ⟨p', hp', q', hq', by rwa [ep, eq], failed.trans ?_⟩
        rw [File.name, File.name, File.name, File.name, ep, eq]
      · obtain ⟨p, hp, q, hq, differ, failed⟩ :=
          sweep_eq_error (r := s) ⟨t, ht, fun e => other (e.trans alike.symm)⟩
        rw [merge_of_not_meets alike meets]
        refine ⟨p, List.mem_cons_of_mem r hp, q, List.mem_cons_of_mem r hq, differ, ?_⟩
        show (sweep (s :: rest)).map (r.length + ·) = _
        rw [failed]
        rfl
    · rw [sweep, merge_of_ne alike]
      exact ⟨r, by simp, s, by simp, alike, rfl⟩
termination_by _ rs => rs.length

/-! ### The length of a list -/

theorem sorted_perm (rs : List Range) : (sorted rs).Perm rs :=
  List.mergeSort_perm _ _

theorem pairwise_sorted (rs : List Range) :
    (sorted rs).Pairwise fun r s => r.first.offset ≤ s.first.offset := by
  refine (List.pairwise_mergeSort ?_ ?_ rs).imp of_decide_eq_true
  · intro r s t le le'
    rw [decide_eq_true_eq] at le le' ⊢
    exact Int.le_trans le le'
  · intro r s
    rw [Bool.or_eq_true, decide_eq_true_eq, decide_eq_true_eq]
    exact Int.le_total _ _

theorem ncard_eq_card_covered (rs : List (Option Range)) :
    {x : Int | ∃ r, some r ∈ rs ∧ r.first.offset ≤ x ∧ x ≤ r.last.offset}.ncard =
      (covered (rs.filterMap id)).card := by
  rw [← Set.ncard_coe_finset]
  congr 1
  ext x
  simp [mem_covered, mem_offsets]

theorem sweep_sorted_eq_ok (same : ∀ r ∈ rs, ∀ s ∈ rs, r.file.version = s.file.version) :
    sweep (sorted rs) = .ok (covered rs).card := by
  have perm := sorted_perm rs
  rw [← covered_perm perm]
  cases all : sorted rs with
  | nil => exact @sweep_eq_ok ⟨"", ""⟩ [] .nil (by simp)
  | cons r rest =>
    have first : r ∈ rs := perm.subset (all ▸ List.mem_cons_self)
    rw [← all]
    exact sweep_eq_ok (pairwise_sorted rs) fun s hs => same s (perm.subset hs) r first

theorem sweep_sorted_eq_error (hr : r ∈ rs) (hs : s ∈ rs)
    (differ : r.file.version ≠ s.file.version) :
    ∃ p ∈ rs, ∃ q ∈ rs, p.file.version ≠ q.file.version ∧
      sweep (sorted rs) = .error (.misuse (.unmergeable p.file.name q.file.name)) := by
  have perm := sorted_perm rs
  have hr' := perm.symm.subset hr
  have hs' := perm.symm.subset hs
  cases all : sorted rs with
  | nil =>
    rw [all] at hr'
    cases hr'
  | cons first rest =>
    rw [all] at perm hr' hs'
    -- one of the two is of another version than the first range
    have other : ∃ t ∈ rest, t.file.version ≠ first.file.version := by
      by_contra alike
      push Not at alike
      have same : ∀ t ∈ first :: rest, t.file.version = first.file.version := by
        simpa using alike
      exact differ ((same r hr').trans (same s hs').symm)
    obtain ⟨p, hp, q, hq, differ', failed⟩ := sweep_eq_error other
    exact ⟨p, perm.subset hp, q, perm.subset hq, differ', failed⟩

/-- The length of a list of ranges, some of which may be missing, is the number of offsets that
lie in at least one of them, in whatever order they come and however they overlap. If two of them
are of different versions there is no such length, and the misuse names two like that.

What this rests on: ranges of one version are merged without a fault, into one range if and only
if there is no gap in what they cover together, and then it covers just that, whichever of the two
the other one is merged into. -/
theorem unionLength_covered :
    (∀ rs : List (Option Range),
      (∀ r s, some r ∈ rs → some s ∈ rs → r.file.version = s.file.version) →
        unionLength rs =
          .ok {x : Int | ∃ r, some r ∈ rs ∧ r.first.offset ≤ x ∧ x ≤ r.last.offset}.ncard) ∧
    (∀ rs : List (Option Range),
      (∃ r s, some r ∈ rs ∧ some s ∈ rs ∧ r.file.version ≠ s.file.version) →
        ∃ r s, some r ∈ rs ∧ some s ∈ rs ∧ r.file.version ≠ s.file.version ∧
          unionLength rs = .error (.misuse (.unmergeable r.file.name s.file.name))) ∧
    ∀ r s : Range, r.file.version = s.file.version →
      ∃ m m', r.merge s = .ok m ∧ s.merge r = .ok m' ∧
        (m.isSome ↔ ∃ a b, ∀ x, x ∈ r.offsets ∪ s.offsets ↔ a ≤ x ∧ x ≤ b) ∧
        (m'.isSome ↔ m.isSome) ∧
        ∀ t, m = some t ∨ m' = some t → t.offsets = r.offsets ∪ s.offsets := by
  have given {rs : List (Option Range)} {r : Range} : r ∈ rs.filterMap id ↔ some r ∈ rs := by
    simp
  refine ⟨fun rs same => ?_, fun rs ⟨r, s, hr, hs, differ⟩ => ?_, fun r s alike => ?_⟩
  · rw [ncard_eq_card_covered]
    exact sweep_sorted_eq_ok fun r hr s hs => same r s (given.mp hr) (given.mp hs)
  · obtain ⟨p, hp, q, hq, differ', failed⟩ :=
      sweep_sorted_eq_error (given.mpr hr) (given.mpr hs) differ
    exact ⟨p, q, given.mp hp, given.mp hq, differ', failed⟩
  · by_cases meets : r.Meets s
    · obtain ⟨m, merged, -, -, whole⟩ := merge_of_meets alike meets
      obtain ⟨m', merged', -, -, whole'⟩ := merge_of_meets alike.symm meets.symm
      refine ⟨some m, some m', merged, merged', iff_of_true rfl (meets_iff.mp meets), Iff.rfl, ?_⟩
      intro t ht
      rcases ht with ht | ht
      · rw [← Option.some.inj ht, whole]
      · rw [← Option.some.inj ht, whole', Finset.union_comm]
    · have apart := merge_of_not_meets alike meets
      have apart' := merge_of_not_meets alike.symm fun h => meets h.symm
      refine ⟨none, none, apart, apart', iff_of_false Bool.noConfusion ?_, Iff.rfl, by simp⟩
      exact fun h => meets (meets_iff.mpr h)

/-- Ranges that touch, overlap and lie in each other, out of order and with one missing, cover
the offsets up to four and from seven to nine; with a range of another revision there is no
length. -/
theorem unionLength_covered_nested :
    let range (revision : String) (first length : Nat) : Range :=
      let place (n : Nat) : Position := ⟨⟨1, 1 + n, n, n, Int.le_refl 1,
        Int.le_add_of_nonneg_right (Int.natCast_nonneg n), Int.natCast_nonneg n,
        Int.natCast_nonneg n⟩, ⟨⟨"a", revision⟩, .memory []⟩, 4, by decide⟩
      ⟨place first, place (first + length), rfl, Int.ofNat_le.mpr (Nat.le_add_right first length)⟩
    let rs := [some (range "r1" 7 2), some (range "r1" 3 1), none, some (range "r1" 0 2),
      some (range "r1" 1 0), some (range "r1" 1 2)]
    let other := range "r2" 0 0
    (∀ r s, some r ∈ rs → some s ∈ rs → r.file.version = s.file.version) ∧
      unionLength rs = .ok 8 ∧
      ∃ r s, some r ∈ rs ++ [some other] ∧ some s ∈ rs ++ [some other] ∧
        r.file.version ≠ s.file.version ∧
        unionLength (rs ++ [some other]) =
          .error (.misuse (.unmergeable r.file.name s.file.name)) := by
  intro range rs other
  obtain ⟨covers, fails, -⟩ := unionLength_covered
  have same : ∀ r s, some r ∈ rs → some s ∈ rs → r.file.version = s.file.version := by
    have one : ∀ r, some r ∈ rs → r.file.version = ⟨"a", "r1"⟩ := by
      simp [rs, range, Range.file]
    exact fun r s hr hs => (one r hr).trans (one s hs).symm
  have differ : (range "r1" 7 2).file.version ≠ other.file.version := by
    simp [range, other, Range.file]
  refine ⟨same, ?_, fails _ ⟨range "r1" 7 2, other, by simp [rs], by simp, differ⟩⟩
  rw [covers rs same, ncard_eq_card_covered]
  decide +kernel

end Range
end Lineage
