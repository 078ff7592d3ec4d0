/-
# Fragments beside all edits

A fragment whose ranges lie beside all edits is carried over to where its lines have gone,
and a fragment that is found there is seen to be the same. So the two of them are not both
left without a link: whichever of them has none has lost the other one to some third
fragment (`Matcher.map_links_spared`).

Key theorems: `Matching.carry_spared`, `Matcher.map_links_spared`.
-/
import Lineage.Proofs.Matching.Agreeing
import Lineage.Proofs.Matching.Succeeding
import Lineage.Proofs.Translation.Sparing

namespace Lineage

namespace Matching

variable {o : Scope} {a : Archive} {changes : List Change}

/-- Exactly one change edits the file of a range, and it spares the range. -/
def Spared (o : Scope) (a : Archive) (changes : List Change) (r s : Range) : Prop :=
  ∃ c, changesOf changes r = [c] ∧ c.Spares o a r s

section Carry

variable (within : ∀ c ∈ changes, o.change c)
include within

theorem carryRanges_spared {rs ss : List Range}
    (spared : List.Forall₂ (Spared o a changes) rs ss) :
    ∃ moved, (carryRanges changes rs).Answers o a moved ∧
      moved.map Range.span = ss.map Range.span := by
  induction spared with
  | nil => exact ⟨[], .pure [], rfl⟩
  | @cons r s rs ss first _ ih =>
    obtain ⟨c, only, spares⟩ := first
    obtain ⟨moved, translated, place⟩ := spares.translate
    obtain ⟨others, carried, places⟩ := ih
    have known : ∀ d ∈ [c], o.change d := fun d hd => within d (List.mem_filter.mp (only ▸ hd)).1
    have consults : (translateBy r [c]).Consults o a :=
      modular_translateBy (Work.Consults.modular o a) r
        (fun d hd => Change.consults_files (known d hd)) fun d hd =>
          Change.consults_diff (known d hd)
    have answers : (translateBy r [c]).Answers o a [moved] := by
      intro b hb
      unfold translateBy
      rw [Work.answer_bind_ok (translated b hb)]
      rfl
    refine ⟨moved :: others, ?_, by rw [List.map_cons, List.map_cons, place, places]⟩
    unfold carryRanges
    rw [only]
    apply consults.bind_answers answers
    intro b hb
    rw [Work.answer_bind_ok (carried b hb)]
    rfl

/-- A fragment whose ranges are spared is carried over to where their lines have gone. -/
theorem carry_spared {f : Fragment} {ss : List Range}
    (spared : List.Forall₂ (Spared o a changes) f.ranges ss) :
    ∃ moved, (carry changes f).Answers o a moved ∧ moved.map Range.span = ss.map Range.span := by
  obtain ⟨moved, carried, places⟩ := carryRanges_spared within spared
  refine ⟨if moved = [] then f.ranges else moved, fun b hb => ?_, ?_⟩
  · unfold carry
    rw [Work.answer_bind_ok (carried b hb)]
    rfl
  · by_cases none : moved = []
    · have length := congrArg List.length places
      rw [none, List.length_map, List.length_map, ← spared.length_eq, List.length_nil] at length
      rw [if_pos none, ← places, none, List.length_eq_zero_iff.mp length.symm]
    · rw [if_neg none, places]

end Carry
end Matching

/-- A step that succeeds links a fragment or the other one, if the first one has the standard
criteria, their metadata agree, and the ranges of the other one lie in the new files where the
lines of the first one have gone, each beside all edits of the one change of its file. -/
theorem Matcher.map_links_spared {matcher next : Matcher} {sources targets : List (Option Fragment)}
    {step : Step} {m : Matching} {o : Scope} {a b : Archive} {f t : Fragment} {ss : List Range}
    (within : ∀ c ∈ step.changes, o.change c)
    (success : (matcher.map sources targets step).run a = ((.ok m, next), b))
    (source : f ∈ Fragment.distinct sources) (standard : f.criteria = .standard)
    (spared : List.Forall₂ (Matching.Spared o a step.changes) f.ranges ss)
    (target : t ∈ Fragment.distinct targets) (ranges : ss.Perm t.ranges)
    (metadata : Criteria.metadataAgree f.metadata t.metadata = true) :
    (m.successor f).isSome ∨ (m.predecessor t).isSome := by
  have onward := (Matching.consults_ofLists sources targets within).onward a (.refl o a)
  rw [Work.after_of_run (run_map_eq_ok.mp success).1] at onward
  have wellFormed := Matching.wellFormed_of_map success
  have ruled := ruled_of_map success
  obtain ⟨sourceList, -⟩ := Matching.sides_of_map success
  have targetList := Matching.targets_of_map success
  obtain ⟨i, hi⟩ := List.mem_iff_getElem?.mp source
  obtain ⟨j, hj⟩ := List.mem_iff_getElem?.mp target
  obtain ⟨moved, carried, places⟩ := Matching.carry_spared within spared
  have lies : Matching.Lies step.changes b (Fragment.distinct sources)
      (Fragment.distinct targets) i j := by
    refine ⟨f, t, moved, hi, hj, carried b onward, ?_, ?_⟩
    · unfold Fragment.compatible
      rw [standard]
      exact metadata
    · unfold Fragment.sameRanges
      rw [standard]
      exact Criteria.rangesAgree_of_perm (places ▸ ranges.map Range.span)
  by_cases linked : ∃ l ∈ m.links, l.source = i
  · obtain ⟨l, hl, rfl⟩ := linked
    obtain ⟨p, g, hp, -, succ⟩ := wellFormed.successor_of_link hl
    rw [sourceList, List.getElem?_map, hi] at hp
    cases hp
    exact .inl (by rw [succ]; rfl)
  · have taken := ruled.not_linked i (fun l hl same => linked ⟨l, hl, same⟩) j lies
    obtain ⟨l, hl, rfl⟩ : ∃ l ∈ m.links, l.target = j := by
      rcases taken with ⟨i', hl⟩ | ⟨i', -, hl⟩
      · exact ⟨_, hl, rfl⟩
      · exact ⟨_, hl, rfl⟩
    obtain ⟨p, g, -, hg, pred, -⟩ := wellFormed.predecessor_of_link hl
    rw [targetList, List.getElem?_map, hj] at hg
    cases hg
    exact .inr (by rw [pred]; rfl)

/-- A line that is dropped above a fragment. -/
theorem Matcher.map_links_spared_below :
    let before := ['x', '\n', 'k']
    let after := ['k']
    let old : File := ⟨⟨"a", "r1"⟩, .memory before⟩
    let new : File := ⟨⟨"a", "r2"⟩, .memory after⟩
    let c : Change := ⟨0, some old, some new, .compared⟩
    let p : Position :=
      ⟨⟨2, 1, 2, 0, by decide, by decide, by decide, by decide⟩, old, 4, by decide⟩
    let r : Range := ⟨p, p, rfl, Int.le_refl _⟩
    let f := Fragment.plain 0 [r]
    let t := Fragment.plain 1 [Range.ofFirst new]
    let step : Step := ⟨2, "r2", some "r1", [], [c]⟩
    ∃ m, (((Matcher.make []).map [some f] [some t] step).run .empty).1.1 = .ok m ∧
      ((m.successor f).isSome ∨ (m.predecessor t).isSome) := by
  intro before after old new c p r f t step
  let content : Version → List Char := fun v => if v.revision = "r1" then before else after
  have inMemory : ∀ g ∈ [c].flatMap Change.files,
      g.handle? = none ∧ g.text.answer .empty = .ok (content g.version) := by
    intro g hg
    have either : g = old ∨ g = new := by simpa [c, Change.files] using hg
    rcases either with rfl | rfl
    · exact ⟨rfl, rfl⟩
    · exact ⟨rfl, rfl⟩
  have oneFile : ∀ g ∈ [c].flatMap Change.files, ∀ g' ∈ [c].flatMap Change.files, g.OneHandle g' :=
    fun g hg _ _ _ some => absurd (inMemory g hg).1 some
  let o : Scope := .ofChanges [c] oneFile (by simp)
  have sourced : c.Sourced .empty := Change.sourced_of_unkept rfl
  have compares : c.Compares old new := ⟨rfl, rfl, rfl⟩
  obtain ⟨computed, -⟩ := compares.diff (oneFile old (by simp [c, Change.files]) new
    (by simp [c, Change.files])) sourced rfl rfl
  have finds : c.Finds o .empty old new before after _ :=
    ⟨List.mem_singleton.mpr rfl, rfl, rfl, computed, rfl, rfl⟩
  have stands : p.StandsIn old before := ⟨rfl, .inl rfl⟩
  have stands' : (Range.ofFirst new).first.StandsIn new after := ⟨rfl, .inl rfl⟩
  have spares : c.Spares o .empty r (Range.ofFirst new) :=
    .mk rfl sourced finds stands stands (.above (by decide) (by decide)) stands' stands'
      (by decide) (by decide)
  have resolved : r.Resolved content := ⟨stands, stands⟩
  have accepted : Matching.Acceptable [f] [t] step := by
    refine ⟨?_, ?_, fun _ => ⟨"r1", rfl, ?_⟩⟩ <;> simp [f, t, Fragment.plain]
    · rfl
    · rfl
  obtain ⟨m, success, -⟩ := Matching.ensures_ofStep (fun g g' hg hg' => oneFile g hg g' hg')
    accepted (by simpa [f, Fragment.plain] using resolved) (by simp [step, c])
    (by simp [step]) .empty fun g hg => (inMemory g hg).2
  have mapped : ((Matcher.make []).map [some f] [some t] step).run .empty = _ :=
    run_map_eq_ok.mpr ⟨Prod.ext success rfl, rfl⟩
  refine ⟨m, congrArg (·.1.1) mapped, ?_⟩
  exact map_links_spared (o := o) (by simp [o, step, Scope.ofChanges]) mapped
    (List.mem_singleton.mpr rfl) rfl (.cons ⟨c, by simp [Matching.changesOf]; rfl, spares⟩ .nil)
    (List.mem_singleton.mpr rfl) (.refl _) rfl

end Lineage
