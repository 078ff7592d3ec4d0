/-
# Tab sizes have no influence on the links

A detector may look its positions up with any tab size. Two calls for one step whose
fragments hold the same, with ranges that coincide range by range, are told the same: their
sources are carried over to ranges that coincide, since translation does not depend on tab
sizes, and the criteria see only where ranges lie. So both calls fail, or both succeed and
make the same links (`Matcher.map_any_tab`). Files need not be readable for that.

Key definitions: `Fragment.Coincides`, `Matcher.Retabbed`.
Key theorems: `Matching.agrees_carry`, `Matching.agrees_ofStep`, `Matcher.map_any_tab`.
-/
import Lineage.Proofs.Matching.Relating
import Lineage.Proofs.Translation.Tabs

namespace Lineage

variable {o : Scope} {a : Archive} {content : Version → List Char} {rename rename' : Nat → Nat}

/-- Fragments that hold the same, with ranges that coincide in turn. Their handles may be
others, as long as one goes with one. -/
structure Fragment.Coincides (rename : Nat → Nat) (f f' : Fragment) : Prop where
  handle : f'.handle = rename f.handle
  signature : f.signature = f'.signature
  metadata : f.metadata = f'.metadata
  criteria : f.criteria = f'.criteria
  ranges : List.Forall₂ Range.Coincides f.ranges f'.ranges

theorem Range.spans_eq {rs rs' : List Range} (h : List.Forall₂ Coincides rs rs') :
    rs.map span = rs'.map span :=
  Matching.map_eq_of_forall₂ (fun _ _ same => same.span_eq) h

theorem Fragment.Coincides.looksLike {f f' : Fragment} (h : f.Coincides rename f') :
    f.LooksLike f' where
  signature := h.signature
  metadata := h.metadata
  criteria := h.criteria
  spans := .of_eq (Range.spans_eq h.ranges)
  revisions := .of_eq (Matching.map_eq_of_forall₂
    (fun _ _ same => congrArg Version.revision same.first.version) h.ranges)

/-- Sources that coincide, with plain criteria and ranges whose ends were all found. -/
structure Fragment.Refound (content : Version → List Char) (rename : Nat → Nat)
    (f f' : Fragment) : Prop extends f.Coincides rename f' where
  plain : f.Plain
  resolved : ∀ r ∈ f.ranges, r.Resolved content
  resolved' : ∀ r ∈ f'.ranges, r.Resolved content

namespace Matching

/-! ### Carrying ranges over -/

section Carry

variable (tells : a.Tells o content)
include tells

theorem agrees_translateBy {r r' : Range} (same : r.Coincides r') (hr : r.Resolved content)
    (hr' : r'.Resolved content) : ∀ {cs : List Change}, (∀ c ∈ cs, o.change c) →
      (translateBy r cs).Agrees (translateBy r' cs) o a (List.Forall₂ Range.Coincides)
  | [], _ => .pure .nil
  | c :: cs, known => by
    have rest := agrees_translateBy same hr hr' fun d hd => known d (List.mem_cons_of_mem c hd)
    unfold translateBy
    apply (Range.agrees_translate tells same hr hr' (known c List.mem_cons_self)).bind
    intro moved moved' _ _ related
    cases related with
    | some one => exact rest.bind fun _ _ _ _ others => .pure (.cons one others)
    | none =>
      apply Work.Agrees.bind_same ((Work.Consults.modular o a).lift c.text)
      intro text _
      exact .bind_note Level.noConfusion Level.noConfusion rest

variable {changes : List Change} (known : ∀ c ∈ changes, o.change c)
include known

theorem agrees_carryRanges {rs rs' : List Range} (same : List.Forall₂ Range.Coincides rs rs')
    (resolved : ∀ r ∈ rs, r.Resolved content) (resolved' : ∀ r ∈ rs', r.Resolved content) :
    (carryRanges changes rs).Agrees (carryRanges changes rs') o a
      (List.Forall₂ Range.Coincides) := by
  induction same with
  | nil => exact .pure .nil
  | @cons r r' rs rs' one _ ih =>
    obtain ⟨hr, others⟩ := List.forall_mem_cons.mp resolved
    obtain ⟨hr', others'⟩ := List.forall_mem_cons.mp resolved'
    have rest := ih others others'
    have changes_eq : changesOf changes r' = changesOf changes r := by
      unfold changesOf Range.file
      rw [one.first.version]
    have translated := agrees_translateBy tells one hr hr' fun c (hc : c ∈ changesOf changes r) =>
      known c (List.mem_filter.mp hc).1
    unfold carryRanges
    rw [changes_eq]
    cases eq : changesOf changes r with
    | nil =>
      apply (Work.Agrees.pure (R := List.Forall₂ Range.Coincides) (.cons one .nil)).bind
      intro moved moved' _ _ here
      exact rest.bind fun _ _ _ _ there => .pure (List.rel_append here there)
    | cons c cs =>
      rw [eq] at translated
      apply translated.bind
      intro moved moved' _ _ here
      exact rest.bind fun _ _ _ _ there => .pure (List.rel_append here there)

/-- Sources that coincide are carried over to ranges that coincide. -/
theorem agrees_carry {f f' : Fragment} (h : f.Refound content rename f') :
    (carry changes f).Agrees (carry changes f') o a (List.Forall₂ Range.Coincides) := by
  apply (agrees_carryRanges tells known h.ranges h.resolved h.resolved').bind
  intro moved moved' _ _ same
  apply Work.Agrees.pure
  cases same with
  | nil => exact h.ranges
  | cons one others => exact .cons one others

theorem agrees_carryAll {fs fs' : List (Fragment × Nat)}
    (same : List.Forall₂ (fun f f' => f.1.Refound content rename f'.1 ∧ f.2 = f'.2) fs fs') :
    (carryAll changes fs).Agrees (carryAll changes fs') o a
      (List.Forall₂ fun f f' => (f.1.1.Refound content rename f'.1.1 ∧ f.1.2 = f'.1.2) ∧
        List.Forall₂ Range.Coincides f.2 f'.2) := by
  induction same with
  | nil => exact .pure .nil
  | cons one _ ih =>
    unfold carryAll
    apply (agrees_carry tells known one.1).bind
    intro ranges ranges' _ _ carried
    exact ih.bind fun _ _ _ _ others => .pure (.cons ⟨one, carried⟩ others)

end Carry

/-! ### Steps -/

theorem checks_together {check check' : Except Fault Unit} {p q : Prop} (h : Checks check p)
    (h' : Checks check' q) (same : p ↔ q) : Option.Rel Eq check.toOption check'.toOption := by
  by_cases holds : p
  · rw [h.passes holds, h'.passes (same.mp holds)]
    exact .some rfl
  · obtain ⟨_, told⟩ := h.tells holds
    obtain ⟨_, told'⟩ := h'.tells fun holds' => holds (same.mpr holds')
    rw [told, told']
    exact .none

/-- Matchings with the same links, between fragments that coincide. -/
structure Coincide (rename rename' : Nat → Nat) (m m' : Matching) : Prop where
  links : m.links = m'.links
  sources : List.Forall₂ (Option.Rel (Fragment.Coincides rename)) m.sources m'.sources
  targets : List.Forall₂ (Option.Rel (Fragment.Coincides rename')) m.targets m'.targets

/-- A step does the same with fragments that coincide. -/
theorem agrees_ofStep {sources sources' targets targets' : List Fragment} {step : Step}
    (tells : a.Tells o content) (known : ∀ c ∈ step.changes, o.change c)
    (before : List.Forall₂ (Fragment.Refound content rename) sources sources')
    (behind : List.Forall₂ (Fragment.Coincides rename') targets targets') :
    (ofStep sources targets step).Agrees (ofStep sources' targets' step) o a
      (Coincide rename rename') := by
  have looks := before.imp fun _ _ same => same.toCoincides.looksLike
  have looks' := behind.imp fun _ _ same => same.looksLike
  have accepted : Acceptable sources targets step ↔ Acceptable sources' targets' step :=
    ⟨fun h => h.of_looksLike looks looks' rfl rfl, fun h =>
      h.of_looksLike (.flip (looks.imp fun _ _ same => same.symm))
        (.flip (looks'.imp fun _ _ same => same.symm)) rfl rfl⟩
  have valid := checks_together (checks_validate sources targets step)
    (checks_validate sources' targets' step) accepted
  -- the first round leaves over the same sources, and so the same ranges are carried over
  have unseen : Unseen fun f f' => f.1.Refound content rename f'.1 ∧ f.2 = f'.2 :=
    ⟨fun h => h.1.toCoincides.looksLike, fun h => h.2⟩
  have unseen' : Unseen fun f f' => f.1.Coincides rename' f'.1 ∧ f.2 = f'.2 :=
    ⟨fun h => h.1.looksLike, fun h => h.2⟩
  have first := bySignature_related unseen unseen' (fun h => h.1.plain)
    (zipIdx_related (k := 0) before) (zipIdx_related (k := 0) behind)
  unfold ofStep
  apply (Work.Agrees.lift valid).bind
  rintro _ _ - - -
  dsimp only
  apply Work.Agrees.bind_note Level.noConfusion Level.noConfusion
  apply Work.Agrees.bind_same ((Work.Consults.modular o a).lift _)
  intro kept answer
  rw [Work.answer_lift] at answer
  have still : ∀ c ∈ kept, o.change c := by
    intro c hc
    rw [withoutAdditions_eq answer] at hc
    exact known c (List.mem_filter.mp hc).1
  apply (agrees_carryAll tells still first.unpaired).bind
  intro carried carried' _ _ same
  have second := byPosition_related unseen unseen' (fun h => h.1.plain)
    (fun h => ⟨h.1, .of_eq (Range.spans_eq h.2)⟩) same first.left
  have links := linksOf_related unseen unseen'
    (fun h => ⟨h.1, .of_eq (Range.spans_eq h.2)⟩) first second
  apply Work.Agrees.bind_note Level.noConfusion Level.noConfusion
  apply Work.Agrees.bind_note Level.noConfusion Level.noConfusion
  refine .pure ⟨links, ?_, ?_⟩
  · exact List.rel_map (fun _ _ same => .some same.toCoincides) before
  · exact List.rel_map (fun _ _ same => .some same) behind

end Matching

namespace Matcher

/-! ### Two calls -/

/-- Two calls whose fragments coincide, found with whatever tab sizes: both repeat fragments
alike, and their sources have plain criteria. -/
structure Retabbed (content : Version → List Char) (rename rename' : Nat → Nat)
    (sources targets sources' targets' : List (Option Fragment)) : Prop where
  inj : rename.Injective
  inj' : rename'.Injective
  before : List.Forall₂ (Option.Rel (Fragment.Coincides rename)) sources sources'
  behind : List.Forall₂ (Option.Rel (Fragment.Coincides rename')) targets targets'
  plain : ∀ f ∈ Fragment.distinct sources, f.Plain
  resolved : ∀ f ∈ Fragment.distinct sources, ∀ r ∈ f.ranges, r.Resolved content
  resolved' : ∀ f ∈ Fragment.distinct sources', ∀ r ∈ f.ranges, r.Resolved content

section Retabbed

variable {sources targets sources' targets' : List (Option Fragment)}

theorem Retabbed.refound (h : Retabbed content rename rename' sources targets sources' targets') :
    List.Forall₂ (Fragment.Refound content rename) (Fragment.distinct sources)
      (Fragment.distinct sources') :=
  Matching.forall₂_of_mem (Fragment.distinct_related h.inj (fun _ _ same => same.handle) h.before)
    fun f hf f' hf' same => ⟨same, h.plain f hf, h.resolved f hf, h.resolved' f' hf'⟩

theorem Retabbed.agrees (h : Retabbed content rename rename' sources targets sources' targets')
    {step : Step} (tells : a.Tells o content) (known : ∀ c ∈ step.changes, o.change c) :
    (Matching.ofLists sources targets step).Agrees (Matching.ofLists sources' targets' step) o a
      (Matching.Coincide rename rename') :=
  Matching.agrees_ofStep tells known h.refound
    (Fragment.distinct_related h.inj' (fun _ _ same => same.handle) h.behind)

/-- Tab sizes never influence matching. Two calls for one step, at any time of a session, whose
fragments coincide and have been found with whatever tab sizes, succeed together and make the
same links of the same kinds, whatever files can be read, as long as those that can hold the
content of their versions. Likewise two ranges that coincide are translated together or not at
all, both to nothing or to ranges that coincide. -/
theorem map_any_tab (h : Retabbed content rename rename' sources targets sources' targets')
    {step : Step} {b b' : Archive} (onward : a.Onward o (b.relog a.log))
    (onward' : a.Onward o (b'.relog a.log)) (known : ∀ c ∈ step.changes, o.change c)
    (tells : a.Tells o content) (matcher matcher' : Matcher) :
    let answer := ((matcher.map sources targets step).run b).1.1
    let answer' := ((matcher'.map sources' targets' step).run b').1.1
    ((∃ m, answer = .ok m) ↔ ∃ m', answer' = .ok m') ∧
    (∀ m m', answer = .ok m → answer' = .ok m' → m.Coincide rename rename' m') ∧
    ∀ (r r' : Range) (c : Change), r.Coincides r' → r.Resolved content → r'.Resolved content →
      o.change c →
        ((∃ x, (r.translate c).answer b = .ok x) ↔ ∃ x', (r'.translate c).answer b' = .ok x') ∧
        ∀ x x', (r.translate c).answer b = .ok x → (r'.translate c).answer b' = .ok x' →
          Option.Rel Range.Coincides x x' := by
  intro answer answer'
  obtain ⟨succeed, same⟩ := (h.agrees tells known).together
    (Matching.ignoresLog_ofLists sources targets step)
    (Matching.ignoresLog_ofLists sources' targets' step) onward onward'
  rw [← matcher.answer_map, ← matcher'.answer_map] at succeed same
  refine ⟨succeed, same, fun r r' c coincide hr hr' hc => ?_⟩
  have free : ∀ s : Range, (s.translate c).IgnoresLog := fun s =>
    s.modular_translate Work.IgnoresLog.modular (fun f _ => f.ignoresLog_bytes) c.ignoresLog_diff
  exact (Range.agrees_translate tells coincide hr hr' hc).together (free r) (free r') onward onward'

end Retabbed

/-- A character behind a tab, found with three tab sizes, is linked to itself a line below. -/
theorem map_any_tab_indented :
    let before := ['\t', 'k']
    let after := ['x', '\n', '\t', 'k']
    let old : File := ⟨⟨"a", "r1"⟩, .memory before⟩
    let new : File := ⟨⟨"a", "r2"⟩, .memory after⟩
    let c : Change := ⟨0, some old, some new, .compared⟩
    let p : Position :=
      ⟨⟨1, 5, 1, 1, by decide, by decide, by decide, by decide⟩, old, 4, by decide⟩
    let p' : Position :=
      ⟨⟨1, 9, 1, 1, by decide, by decide, by decide, by decide⟩, old, 8, by decide⟩
    let q' : Position :=
      ⟨⟨1, 2, 1, 1, by decide, by decide, by decide, by decide⟩, old, 1, by decide⟩
    let below (column tab : Int) (h : 1 ≤ column) (h' : 1 ≤ tab) : Position :=
      ⟨⟨2, column, 3, 1, by decide, h, by decide, by decide⟩, new, tab, h'⟩
    let r : Range := ⟨p, p, rfl, Int.le_refl _⟩
    let r' : Range := ⟨p', q', rfl, Int.le_refl _⟩
    let s : Range := ⟨below 5 4 (by decide) (by decide), below 5 4 (by decide) (by decide), rfl,
      Int.le_refl _⟩
    let s' : Range := ⟨below 2 1 (by decide) (by decide), below 9 8 (by decide) (by decide), rfl,
      Int.le_refl _⟩
    let step : Step := ⟨2, "r2", some "r1", [], [c]⟩
    let call (f t : Fragment) :=
      (((Matcher.make []).map [some f] [some t] step).run .empty).1.1
    (∃ m m', call (.plain 0 [r]) (.plain 1 [s]) = .ok m ∧
      call (.plain 5 [r']) (.plain 1 [s']) = .ok m' ∧
        m.links = [⟨0, 0, .position⟩] ∧ m.links = m'.links) ∧
    ∃ moved moved', (r.translate c).answer .empty = .ok (some moved) ∧
      (r'.translate c).answer .empty = .ok (some moved') ∧ moved.Coincides moved' ∧
        moved.first.toPlace = s.first.toPlace ∧ moved.last.toPlace = s.last.toPlace := by
  intro before after old new c p p' q' below r r' s s' step call
  let content : Version → List Char := fun v => if v.revision = "r1" then before else after
  have inMemory : ∀ g ∈ [c].flatMap Change.files,
      g.handle? = none ∧ g.text.answer .empty = .ok (content g.version) := by
    intro g hg
    have either : g = old ∨ g = new := by simpa [c, Change.files] using hg
    rcases either with rfl | rfl
    · exact ⟨rfl, rfl⟩
    · exact ⟨rfl, rfl⟩
  let o : Scope := .ofChanges [c] (fun g hg _ _ _ own => absurd (inMemory g hg).1 own) (by simp)
  have tells : Archive.empty.Tells o content := fun g hg text read =>
    Except.ok.inj (read.symm.trans (inMemory g hg).2)
  have hr : r.Resolved content := ⟨⟨rfl, .inl rfl⟩, rfl, .inl rfl⟩
  have hr' : r'.Resolved content := ⟨⟨rfl, .inl rfl⟩, rfl, .inl rfl⟩
  have coincide : r.Coincides r' := ⟨⟨rfl, rfl⟩, rfl, rfl⟩
  have coincide' : s.Coincides s' := ⟨⟨rfl, rfl⟩, rfl, rfl⟩
  have retabbed : Retabbed content (· + 5) id [some (.plain 0 [r])] [some (.plain 1 [s])]
      [some (.plain 5 [r'])] [some (.plain 1 [s'])] := by
    refine ⟨add_left_injective 5, Function.injective_id,
      .cons (.some ⟨rfl, rfl, rfl, rfl, .cons coincide .nil⟩) .nil,
      .cons (.some ⟨rfl, rfl, rfl, rfl, .cons coincide' .nil⟩) .nil, ?_, ?_, ?_⟩
    · intro f hf
      rw [List.mem_singleton.mp hf]
      exact ⟨none, none, none, rfl⟩
    · intro f hf d hd
      rw [List.mem_singleton.mp hf] at hd
      rwa [List.mem_singleton.mp hd]
    · intro f hf d hd
      rw [List.mem_singleton.mp hf] at hd
      rwa [List.mem_singleton.mp hd]
  have onward : Archive.empty.Onward o (Archive.empty.relog []) := .refl o .empty
  have known : ∀ d ∈ step.changes, o.change d := fun d hd => hd
  obtain ⟨together, same, translated⟩ := map_any_tab retabbed onward onward known tells
    (.make []) (.make [])
  have answers : ∀ {α : Type} {e : Except Fault α} {x : α}, e.toOption = some x → e = .ok x := by
    intro α e x same
    cases e with
    | error e => cases same
    | ok y => rw [Option.some.inj same]
  have linked : (call (.plain 0 [r]) (.plain 1 [s])).toOption.map Matching.links =
      some [⟨0, 0, .position⟩] := by
    dsimp only [call, step, r, s, below, p, c, old, new, before, after]
    decide +kernel
  obtain ⟨m, found, links⟩ := Option.map_eq_some_iff.mp linked
  have success := answers found
  obtain ⟨m', success'⟩ := together.mp ⟨m, success⟩
  have placed : ((r.translate c).answer .empty).toOption.map
      (Option.map fun d => (d.first.toPlace, d.last.toPlace)) =
        some (some (s.first.toPlace, s.last.toPlace)) := by
    dsimp only [r, s, below, p, c, old, new, before, after]
    decide +kernel
  obtain ⟨x, found, ends⟩ := Option.map_eq_some_iff.mp placed
  obtain ⟨moved, rfl, same_ends⟩ := Option.map_eq_some_iff.mp ends
  obtain ⟨both, related⟩ := translated r r' c coincide hr hr' (List.mem_singleton.mpr rfl)
  have answer := answers found
  obtain ⟨moved', answer'⟩ := both.mp ⟨some moved, answer⟩
  have coincides := related _ _ answer answer'
  cases moved' with
  | none => cases coincides
  | some t =>
    cases coincides with
    | some one =>
      exact ⟨⟨m, m', success, success', links, (same _ _ success success').links⟩,
        moved, t, answer, answer', one, congrArg Prod.fst same_ends, congrArg Prod.snd same_ends⟩

end Matcher
end Lineage
