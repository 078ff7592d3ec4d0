/-
# Contents that differ

The contents of two fragments are compared without regard to the order of their ranges. Range
by range, a content is looked for among those that remain of the other side and used up there;
what is kept up is that as many contents remain as ranges. So when the ranges come to an end
nothing is left over, and no content has been missing if and only if the two sides hold the same
contents equally often (`answers_differFrom`). What is compared are multisets, and fragments that
do not differ fall into classes (`contentsDiffer_multiset`).

Key definitions: `Range.Shows`, `Fragment.Shows`.
Key theorems: `answers_differFrom`, `contentsDiffer_multiset`.
-/
import Lineage.Proofs.Archive.Consulting
import Lineage.Proofs.Tracking.Planning
import Mathlib.Data.Multiset.Basic

namespace Lineage

/-- A range of a session that can be read, and its content. -/
structure Range.Shows (o : Scope) (a : Archive) (r : Range) (content : List Char) : Prop where
  known : o.file r.file
  answer : r.content.answer a = .ok content

/-- A fragment all of whose ranges can be read, and their contents, as often as they occur. -/
def Fragment.Shows (o : Scope) (a : Archive) (f : Fragment) (contents : Multiset (List Char)) :
    Prop :=
  ∃ xs : List (List Char), List.Forall₂ (Range.Shows o a) f.ranges xs ∧ (xs : Multiset _) = contents

variable {o : Scope} {a : Archive}

namespace Range.Shows

variable {r : Range} {content : List Char}

theorem consults (h : r.Shows o a content) : r.content.Consults o a :=
  r.modular_content (Work.Consults.modular o a) (File.consults_bytes h.known)

theorem answers (h : r.Shows o a content) : r.content.Answers o a content :=
  h.consults.answers h.answer

end Range.Shows

theorem answers_contentsOf {rs : List Range} {xs : List (List Char)}
    (shows : List.Forall₂ (Range.Shows o a) rs xs) :
    (contentsOf rs).Consults o a ∧ (contentsOf rs).Answers o a xs := by
  have modular := Work.Consults.modular o a
  induction shows with
  | nil => exact ⟨modular.pure [], .pure []⟩
  | cons here _ ih =>
    obtain ⟨consults, answers⟩ := ih
    exact ⟨here.consults.bind fun _ _ => consults.bind fun _ _ => modular.pure _,
      here.consults.bind_answers here.answers (consults.bind_answers answers (.pure _))⟩

/-- As many contents as there are ranges are used up without a fault, and none of them is
missing if and only if the ranges have these contents in some order. -/
theorem answers_differFrom {rs : List Range} {xs : List (List Char)}
    (shows : List.Forall₂ (Range.Shows o a) rs xs) :
    ∀ remaining : List (List Char), remaining.length = rs.length →
      ∃ differ, (differFrom rs remaining).Answers o a differ ∧
        (differ = false ↔ xs.Perm remaining) := by
  induction shows with
  | nil =>
    intro remaining length
    obtain rfl := List.eq_nil_of_length_eq_zero length
    exact ⟨false, .pure false, iff_of_true rfl .nil⟩
  | @cons r content rs xs here _ ih =>
    intro remaining length
    by_cases found : content ∈ remaining
    · have left : (remaining.erase content).length = rs.length := by
        rw [List.length_erase_of_mem found, length, List.length_cons, Nat.add_sub_cancel]
      obtain ⟨differ, answers, same⟩ := ih (remaining.erase content) left
      refine ⟨differ, here.consults.bind_answers here.answers ?_, ?_⟩
      · rwa [if_pos found]
      · rw [same, List.cons_perm_iff_perm_erase, and_iff_right found]
    · refine ⟨true, here.consults.bind_answers here.answers ?_, ?_⟩
      · rw [if_neg found]
        exact .pure true
      · refine iff_of_false Bool.noConfusion fun perm => found ?_
        exact perm.subset List.mem_cons_self

/-- Fragments with readable ranges are compared without a fault, and do not differ if and only
if they have the same contents equally often. -/
theorem answers_contentsDiffer {f g : Fragment} {xs ys : Multiset (List Char)}
    (hf : f.Shows o a xs) (hg : g.Shows o a ys) :
    ∃ differ, (contentsDiffer f g).Answers o a differ ∧ (differ = false ↔ xs = ys) := by
  obtain ⟨xs, shows, rfl⟩ := hf
  obtain ⟨ys, shows', rfl⟩ := hg
  rw [Multiset.coe_eq_coe]
  unfold contentsDiffer
  by_cases length : f.ranges.length = g.ranges.length
  · obtain ⟨consults, contents⟩ := answers_contentsOf shows'
    have count : ys.length = f.ranges.length := by rw [length, shows'.length_eq]
    obtain ⟨differ, answers, same⟩ := answers_differFrom shows ys count
    refine ⟨differ, ?_, same⟩
    rw [if_neg (not_not_intro length)]
    exact consults.bind_answers contents answers
  · refine ⟨true, ?_, iff_of_false Bool.noConfusion fun perm => length ?_⟩
    · rw [if_pos length]
      exact .pure true
    · rw [shows.length_eq, shows'.length_eq, perm.length_eq]

/-- Whether fragments with readable ranges differ in content is answered without a fault, either
way round alike, and they do not if and only if they have the same contents equally often. So
not to differ is an equivalence of such fragments. -/
theorem contentsDiffer_multiset (o : Scope) (a : Archive) :
    (∀ (f g : Fragment) (xs ys : Multiset (List Char)), f.Shows o a xs → g.Shows o a ys →
      ∃ differ, (contentsDiffer f g).Answers o a differ ∧
        (contentsDiffer g f).Answers o a differ ∧ (differ = false ↔ xs = ys)) ∧
    Equivalence fun f g : {f : Fragment // ∃ contents, f.Shows o a contents} =>
      (contentsDiffer f.val g.val).Answers o a false := by
  have agrees {f g : Fragment} {xs ys : Multiset (List Char)} (hf : f.Shows o a xs)
      (hg : g.Shows o a ys) : (contentsDiffer f g).Answers o a false ↔ xs = ys := by
    obtain ⟨differ, answers, same⟩ := answers_contentsDiffer hf hg
    rw [← same]
    refine ⟨fun no => Except.ok.inj (answers.here.symm.trans no.here), ?_⟩
    rintro rfl
    exact answers
  constructor
  · intro f g xs ys hf hg
    obtain ⟨differ, answers, same⟩ := answers_contentsDiffer hf hg
    obtain ⟨differ', answers', same'⟩ := answers_contentsDiffer hg hf
    have alike : differ = differ' := by
      have neither : differ = false ↔ differ' = false := same.trans (eq_comm.trans same'.symm)
      cases differ <;> cases differ' <;> simp_all
    exact ⟨differ, answers, alike ▸ answers', same⟩
  · constructor
    · rintro ⟨f, xs, hf⟩
      exact (agrees hf hf).mpr rfl
    · rintro ⟨f, xs, hf⟩ ⟨g, ys, hg⟩ no
      exact (agrees hg hf).mpr ((agrees hf hg).mp no).symm
    · rintro ⟨f, xs, hf⟩ ⟨g, ys, hg⟩ ⟨h, zs, hh⟩ no no'
      exact (agrees hf hh).mpr (((agrees hf hg).mp no).trans ((agrees hg hh).mp no'))

/-- Two fragments whose ranges hold one content twice and another one once, in different orders
and files; a third one holds the other content twice. -/
theorem contentsDiffer_multiset_reordered :
    let old : File := ⟨⟨"a", "r1"⟩, .memory ['x', 'x', 'y']⟩
    let new : File := ⟨⟨"a", "r2"⟩, .memory ['y', 'x', 'y']⟩
    let letter (file : File) (offset : Int) (nonneg : 0 ≤ offset) : Range :=
      let p : Position :=
        ⟨⟨1, offset + 1, offset, offset, by decide, by omega, nonneg, nonneg⟩, file, 4, by decide⟩
      ⟨p, p, rfl, Int.le_refl _⟩
    let f : Fragment :=
      .plain 0 [letter old 0 (by decide), letter old 1 (by decide), letter old 2 (by decide)]
    let g : Fragment :=
      .plain 1 [letter old 0 (by decide), letter new 0 (by decide), letter new 1 (by decide)]
    let h : Fragment :=
      .plain 2 [letter new 0 (by decide), letter new 1 (by decide), letter new 2 (by decide)]
    let xs : Multiset (List Char) := [['x'], ['x'], ['y']]
    let ys : Multiset (List Char) := [['y'], ['x'], ['y']]
    ∃ o : Scope, f.Shows o .empty xs ∧ g.Shows o .empty xs ∧ h.Shows o .empty ys ∧
      (contentsDiffer f g).Answers o .empty false ∧ (contentsDiffer f h).Answers o .empty true := by
  intro old new letter f g h xs ys
  let o : Scope := ⟨fun file => file.handle? = none, fun _ => False,
    fun _ _ unhandled _ _ some => absurd unhandled some, fun _ _ no => no.elim,
    fun _ no => no.elim⟩
  have hf : f.Shows o .empty xs :=
    ⟨[['x'], ['x'], ['y']], .cons ⟨rfl, rfl⟩ (.cons ⟨rfl, rfl⟩ (.cons ⟨rfl, rfl⟩ .nil)), rfl⟩
  have hg : g.Shows o .empty xs :=
    ⟨[['x'], ['y'], ['x']], .cons ⟨rfl, rfl⟩ (.cons ⟨rfl, rfl⟩ (.cons ⟨rfl, rfl⟩ .nil)),
      by decide⟩
  have hh : h.Shows o .empty ys :=
    ⟨[['y'], ['x'], ['y']], .cons ⟨rfl, rfl⟩ (.cons ⟨rfl, rfl⟩ (.cons ⟨rfl, rfl⟩ .nil)), rfl⟩
  obtain ⟨compares, -⟩ := contentsDiffer_multiset o .empty
  obtain ⟨differ, answers, -, same⟩ := compares f g xs xs hf hg
  obtain ⟨differ', answers', -, same'⟩ := compares f h xs ys hf hh
  obtain rfl : differ = false := same.mpr rfl
  obtain rfl : differ' = true := eq_true_of_ne_false fun no =>
    absurd (same'.mp no) (by decide)
  exact ⟨o, hf, hg, hh, answers, answers'⟩

end Lineage
