/-
# Translation keeps positions in order

Positions in one text are in the order of their lines, and in one line in the order of
their places in it. A change whose diff deletes no line twice takes them to positions in
the same order, whatever it inserts where: the layout moves lines in order, and the
positions of a line keep their columns or go to the first one all together. So lines that
are not lost stay apart, and a range is lost only with one of its ends
(`Position.apply_keeps_order`).

What the files of a change hold is found anew by all work of a session, so a position is
taken to the same place whatever was read before.

Key definitions: `Change.Finds`.
Key theorems: `Change.Finds.lands`, `Position.apply_keeps_order`.
-/
import Lineage.Proofs.Archive.Consulting
import Lineage.Proofs.Layout.Ordering
import Lineage.Proofs.Text.Offsets
import Lineage.Proofs.Translation.Succeeding

namespace Lineage

open Text (splitLines lineStart)

/-! ### Positions of one text -/

namespace Position

section Order

variable {p q : Position} {file file' : File} {text : List Char}

/-- The offset of a position counts from the start of its line, and falls in that line. -/
theorem StandsIn.offset_eq (h : p.StandsIn file text) :
    ∃ line, (splitLines text)[(p.line - 1).toNat]? = some line ∧
      p.offset = lineStart (splitLines text) (p.line - 1).toNat + p.lineOffset ∧
        p.lineOffset < line.length := by
  obtain ⟨-, -, line, i, hl, hi, -, -, offset, lineOffset⟩ := Text.placeAt_eq_some.mp h.placeAt
  obtain ⟨front, ch, rest, rfl, rfl, -, -⟩ := Text.exists_of_offsetInLine hi
  refine ⟨_, hl, by rw [offset, lineOffset], ?_⟩
  rw [lineOffset, List.length_append, List.length_cons]
  omega

theorem StandsIn.offset_lt (hp : p.StandsIn file text) (hq : q.StandsIn file' text)
    (lt : p.line < q.line) : p.offset < q.offset := by
  have pos := p.one_le_line
  have nonneg := q.lineOffset_nonneg
  obtain ⟨line, here, hpo, inside⟩ := hp.offset_eq
  obtain ⟨_, -, hqo, -⟩ := hq.offset_eq
  have next := Text.lineStart_succ here
  have le := Text.lineStart_mono (splitLines text)
    (show (p.line - 1).toNat + 1 ≤ (q.line - 1).toNat by omega)
  omega

theorem StandsIn.line_le (hp : p.StandsIn file text) (hq : q.StandsIn file' text)
    (le : p.offset ≤ q.offset) : p.line ≤ q.line := by
  by_contra later
  have lt := hq.offset_lt hp (Int.not_le.mp later)
  omega

theorem StandsIn.offset_le_iff (hp : p.StandsIn file text) (hq : q.StandsIn file' text)
    (same : p.line = q.line) : p.offset ≤ q.offset ↔ p.lineOffset ≤ q.lineOffset := by
  obtain ⟨_, -, hpo, -⟩ := hp.offset_eq
  obtain ⟨_, -, hqo, -⟩ := hq.offset_eq
  rw [hpo, hqo, same]
  omega

theorem StandsIn.offset_unique (hp : p.StandsIn file text) (hq : q.StandsIn file' text)
    (line : p.line = q.line) (place : p.lineOffset = q.lineOffset) : p.offset = q.offset :=
  Int.le_antisymm ((hp.offset_le_iff hq line).mpr (Int.le_of_eq place))
    ((hq.offset_le_iff hp line.symm).mpr (Int.le_of_eq place.symm))

theorem Lands.offset_le {old new : File} {before after : List Char} {N : Nat} {p' q' : Position}
    (hp : p.StandsIn old before) (hq : q.StandsIn old before) (same : p.line = q.line)
    (le : p.offset ≤ q.offset) (hp' : p.Lands new before after N (some p'))
    (hq' : q.Lands new before after N (some q')) : p'.offset ≤ q'.offset := by
  obtain ⟨-, stands, line, -, column⟩ := hp'
  obtain ⟨-, stands', line', -, column'⟩ := hq'
  rw [stands.offset_le_iff stands' (line.trans line'.symm)]
  rw [same] at column
  split at column
  next kept =>
    rw [if_pos kept] at column'
    rw [column.2, column'.2]
    exact (hp.offset_le_iff hq same).mp le
  next other =>
    rw [if_neg other] at column'
    rw [column.2, column'.2]

end Order

end Position

/-! ### A change in a session -/

/-- A change of a session, both of whose files have texts, and the diff that it answers. -/
structure Change.Finds (c : Change) (o : Scope) (a : Archive) (old new : File)
    (before after : List Char) (diff : List LineChange) : Prop where
  known : o.change c
  oldText : old.text.answer a = .ok before
  newText : new.text.answer a = .ok after
  answer : c.diff.answer a = .ok diff
  old : c.old = some old
  new : c.new = some new

theorem Position.consults_apply {o : Scope} {a : Archive} {c : Change} (known : o.change c)
    (p : Position) : (p.apply c).Consults o a :=
  p.modular_apply (Work.Consults.modular o a) (Change.consults_files known)
    (Change.consults_diff known)

namespace Range

variable {o : Scope} {a : Archive} {c : Change} {r : Range}

theorem apply_of_ends (known : o.change c) {p q : Position}
    (begins : (r.first.apply c).Answers o a (some p))
    (ends : (r.last.apply c).Answers o a (some q)) (same : p.file.version = q.file.version)
    (le : p.offset ≤ q.offset) : (r.apply c).Answers o a (some ⟨p, q, same, le⟩) := by
  apply (r.first.consults_apply known).bind_answers begins
  apply (r.last.consults_apply known).bind_answers ends
  dsimp only
  rw [if_pos le, ofPositions?_eq_ok same le]
  exact .pure _

theorem apply_of_lost (known : o.change c) {s t : Option Position}
    (begins : (r.first.apply c).Answers o a s) (ends : (r.last.apply c).Answers o a t)
    (lost : s = none ∨ t = none) : (r.apply c).Answers o a none := by
  apply (r.first.consults_apply known).bind_answers begins
  apply (r.last.consults_apply known).bind_answers ends
  rcases lost with rfl | rfl
  · exact .pure _
  · cases s <;> exact .pure _

theorem consults_apply (known : o.change c) (r : Range) : (r.apply c).Consults o a :=
  r.modular_apply (Work.Consults.modular o a) (Change.consults_files known)
    (Change.consults_diff known)

/-- What the ends make is preferred to any estimate. -/
theorem translate_of_applied (known : o.change c) {s : Range}
    (applied : (r.apply c).Answers o a (some s)) : (r.translate c).Answers o a (some s) :=
  (r.consults_apply known).bind_answers applied (.pure _)

end Range

namespace Change.Finds

variable {c : Change} {o : Scope} {a : Archive} {old new : File} {before after : List Char}
  {diff : List LineChange} {p : Position}

section Files

variable (h : c.Finds o a old new before after diff)
include h

theorem oldKnown : o.file old :=
  o.file_of_change c h.known old (mem_files.mpr (.inl h.old))

theorem newKnown : o.file new :=
  o.file_of_change c h.known new (mem_files.mpr (.inr h.new))

theorem exists_settled :
    ∃ b, a.Onward o b ∧ old.text.Settled b before ∧ new.text.Settled b after := by
  have oldReads : old.text.Consults o a := File.consults_text h.oldKnown
  have newReads : new.text.Consults o a := File.consults_text h.newKnown
  have first := oldReads.onward a (.refl o a)
  have again : new.text.answer (old.text.after a) = .ok after := by
    rw [newReads.answer _ first, h.newText]
  exact ⟨_, newReads.onward _ first,
    (old.reads_text.settled h.oldText).mono (new.reads_text.keeps _),
    new.reads_text.settled again⟩

theorem consults_applyLayout (p : Position) (layout : Layout) :
    (p.applyLayout old new layout).Consults o a :=
  p.modular_applyLayout (Work.Consults.modular o a) (File.consults_bytes h.oldKnown)
    (File.consults_bytes h.newKnown) layout

theorem answer_apply (version : old.version = p.file.version) :
    (p.apply c).answer a = (p.applyLayout old new (.ofDiff diff)).answer a := by
  unfold Position.apply
  rw [h.old, h.new]
  dsimp only
  rw [if_neg fun ne => ne version]
  exact (consults_diff h.known).answer_bind (h.consults_applyLayout p _) h.answer

/-- A position lands on the line that the layout moves its line to. -/
theorem lands (stands : p.StandsIn old before) {N : Nat}
    (kept : (Layout.ofDiff diff).deletes p.line = false)
    (moved : (Layout.ofDiff diff).mapLine p.line = N) (pos : 1 ≤ N) :
    ∃ r, (p.apply c).Answers o a r ∧ p.Lands new before after N r := by
  obtain ⟨b, onward, oldText, newText⟩ := h.exists_settled
  obtain ⟨r, settled, lands⟩ := Position.applyLayout_lands oldText newText stands kept moved pos
  refine ⟨r, (p.consults_apply h.known).answers ?_, lands⟩
  calc (p.apply c).answer a
      = (p.applyLayout old new (.ofDiff diff)).answer a := h.answer_apply stands.version
    _ = (p.applyLayout old new (.ofDiff diff)).answer b :=
        ((h.consults_applyLayout p _).answer b onward).symm
    _ = .ok r := settled.answer

theorem gone (version : old.version = p.file.version)
    (lost : (Layout.ofDiff diff).deletes p.line = true ∨
      (Layout.ofDiff diff).mapLine p.line < 1) : (p.apply c).Answers o a none := by
  apply (p.consults_apply h.known).answers
  rw [h.answer_apply version]
  unfold Position.applyLayout
  by_cases deleted : (Layout.ofDiff diff).deletes p.line = true
  · rw [if_pos deleted]
    rfl
  · rw [if_neg deleted, Work.answer_bind_ok (File.answer_lines h.newText)]
    simp [lost.resolve_left deleted]

/-- The change takes a position to one place throughout the session: nowhere, or to the line
that the layout moves its line to. -/
theorem exists_answer (stands : p.StandsIn old before) :
    ∃ r, (p.apply c).Answers o a r ∧ ∀ p', r = some p' →
      (Layout.ofDiff diff).deletes p.line = false ∧
        ∃ N : Nat, (Layout.ofDiff diff).mapLine p.line = N ∧
          p.Lands new before after N (some p') := by
  by_cases lost : (Layout.ofDiff diff).deletes p.line = true ∨
      (Layout.ofDiff diff).mapLine p.line < 1
  · exact ⟨none, h.gone stands.version lost, by simp⟩
  · obtain ⟨kept, inside⟩ := not_or.mp lost
    have kept := Bool.eq_false_iff.mpr kept
    obtain ⟨N, mapped⟩ := Int.eq_ofNat_of_zero_le (show 0 ≤ (Layout.ofDiff diff).mapLine p.line by
      omega)
    obtain ⟨r, answers, lands⟩ := h.lands stands kept mapped (by omega)
    refine ⟨r, answers, ?_⟩
    rintro p' rfl
    exact ⟨kept, N, mapped, lands⟩

theorem exists_lands {p' : Position} (stands : p.StandsIn old before)
    (moved : (p.apply c).Answers o a (some p')) :
    (Layout.ofDiff diff).deletes p.line = false ∧
      ∃ N : Nat, (Layout.ofDiff diff).mapLine p.line = N ∧
        p.Lands new before after N (some p') := by
  obtain ⟨r, answers, place⟩ := h.exists_answer stands
  exact place p' (Except.ok.inj (answers.here.symm.trans moved.here))

end Files

section Order

variable (h : c.Finds o a old new before after diff)
  (distinct : ((diff.filter LineChange.isDelete).map LineChange.line).Nodup)
  {q p' q' : Position} (hp : p.StandsIn old before) (hq : q.StandsIn old before)
  (moved : (p.apply c).Answers o a (some p')) (moved' : (q.apply c).Answers o a (some q'))
include h hp hq moved moved'

include distinct in
/-- Of two positions in different lines, the second one is taken to a later line. -/
theorem line_lt (lt : p.line < q.line) : p'.line < q'.line := by
  obtain ⟨-, N, mapped, lands⟩ := h.exists_lands hp moved
  obtain ⟨kept, M, mapped', lands'⟩ := h.exists_lands hq moved'
  have distinct := Layout.nodup_deletions_ofDiff distinct
  calc p'.line = (Layout.ofDiff diff).mapLine p.line := by rw [lands.2.2.1, mapped]
    _ < (Layout.ofDiff diff).mapLine q.line :=
        (Layout.sorted_ofDiff diff).mapLine_lt distinct lt kept
    _ = q'.line := by rw [lands'.2.2.1, mapped']

/-- Two positions in one line are taken to one line, and stay in their order. -/
theorem line_eq (same : p.line = q.line) :
    p'.line = q'.line ∧ (p.offset ≤ q.offset → p'.offset ≤ q'.offset) := by
  obtain ⟨-, N, mapped, lands⟩ := h.exists_lands hp moved
  obtain ⟨-, M, mapped', lands'⟩ := h.exists_lands hq moved'
  obtain rfl : N = M := by
    rw [same, mapped'] at mapped
    exact (Int.ofNat.inj mapped).symm
  exact ⟨lands.2.2.1.trans lands'.2.2.1.symm, fun le => lands.offset_le hp hq same le lands'⟩

include distinct in
theorem offset_le (le : p.offset ≤ q.offset) : p'.offset ≤ q'.offset := by
  obtain ⟨-, _, -, lands⟩ := h.exists_lands hp moved
  obtain ⟨-, _, -, lands'⟩ := h.exists_lands hq moved'
  by_cases same : p.line = q.line
  · exact (h.line_eq hp hq moved moved' same).2 le
  · have lt := Int.lt_iff_le_and_ne.mpr ⟨hp.line_le hq le, same⟩
    exact Int.le_of_lt
      (lands.2.1.offset_lt lands'.2.1 (h.line_lt distinct hp hq moved moved' lt))

end Order

/-- A range becomes nothing only with one of its ends. -/
theorem apply_range (h : c.Finds o a old new before after diff)
    (distinct : ((diff.filter LineChange.isDelete).map LineChange.line).Nodup) {r : Range}
    (first : r.first.StandsIn old before) (last : r.last.StandsIn old before) :
    ∃ m, (r.apply c).Answers o a m ∧ (m = none ↔
      (r.first.apply c).Answers o a none ∨ (r.last.apply c).Answers o a none) := by
  obtain ⟨s, begins, -⟩ := h.exists_answer first
  obtain ⟨t, ends, -⟩ := h.exists_answer last
  by_cases lost : s = none ∨ t = none
  · refine ⟨none, Range.apply_of_lost h.known begins ends lost, iff_of_true rfl ?_⟩
    rcases lost with rfl | rfl
    · exact .inl begins
    · exact .inr ends
  · obtain ⟨hs, ht⟩ := not_or.mp lost
    obtain ⟨p, rfl⟩ := Option.ne_none_iff_exists'.mp hs
    obtain ⟨q, rfl⟩ := Option.ne_none_iff_exists'.mp ht
    obtain ⟨-, _, -, inNew, -⟩ := h.exists_lands first begins
    obtain ⟨-, _, -, inNew', -⟩ := h.exists_lands last ends
    have same : p.file.version = q.file.version := by rw [inNew, inNew']
    have le := h.offset_le distinct first last begins ends r.first_le_last
    refine ⟨_, Range.apply_of_ends h.known begins ends same le,
      iff_of_false (Option.some_ne_none _) ?_⟩
    rintro (none | none)
    · cases begins.here.symm.trans none.here
    · cases ends.here.symm.trans none.here

end Change.Finds

/-! ### The order of translations -/

/-- A change whose diff deletes no line twice takes positions somewhere or nowhere, the same
throughout a session. Those that it takes somewhere are taken to later lines from later
lines, and to one line, in their order, from one line; so different lines are not taken to
one. A range becomes nothing if and only if one of its ends does. -/
theorem Position.apply_keeps_order {c : Change} {o : Scope} {a : Archive} {old new : File}
    {before after : List Char} {diff : List LineChange}
    (h : c.Finds o a old new before after diff)
    (distinct : ((diff.filter LineChange.isDelete).map LineChange.line).Nodup) :
    (∀ p : Position, p.StandsIn old before → ∃ r, (p.apply c).Answers o a r) ∧
    (∀ p q p' q' : Position, p.StandsIn old before → q.StandsIn old before →
      (p.apply c).Answers o a (some p') → (q.apply c).Answers o a (some q') →
        (p.line < q.line → p'.line < q'.line) ∧
        (p.line = q.line → p.offset ≤ q.offset → p'.line = q'.line ∧ p'.offset ≤ q'.offset) ∧
        (p.line ≠ q.line → p'.line ≠ q'.line)) ∧
    ∀ r : Range, r.first.StandsIn old before → r.last.StandsIn old before →
      ∃ m, (r.apply c).Answers o a m ∧ (m = none ↔
        (r.first.apply c).Answers o a none ∨ (r.last.apply c).Answers o a none) := by
  refine ⟨fun p stands => ?_, fun p q p' q' hp hq moved moved' => ?_,
    fun r first last => h.apply_range distinct first last⟩
  · obtain ⟨r, answers, -⟩ := h.exists_answer stands
    exact ⟨r, answers⟩
  refine ⟨h.line_lt distinct hp hq moved moved', fun same le => ?_, fun different => ?_⟩
  · obtain ⟨line, order⟩ := h.line_eq hp hq moved moved' same
    exact ⟨line, order le⟩
  · rcases Int.lt_or_gt_of_ne different with lt | gt
    · exact Int.ne_of_lt (h.line_lt distinct hp hq moved moved' lt)
    · exact Int.ne_of_gt (h.line_lt distinct hq hp moved' moved gt)

/-- A given diff that brings a line above two others and drops the one below them. -/
theorem Position.apply_keeps_order_scripted :
    let before := ['k', '\n', 'm', '\n', 'n']
    let after := ['x', '\n', 'k', '\n', 'm']
    let old : File := ⟨⟨"a", "r1"⟩, .memory before⟩
    let new : File := ⟨⟨"a", "r2"⟩, .memory after⟩
    let d : LineChange := ⟨.delete, 3, ['n'], by decide⟩
    let i : LineChange := ⟨.insert, 1, ['x'], by decide⟩
    let c : Change := ⟨0, some old, some new, .scripted [i, d]⟩
    let p : Position :=
      ⟨⟨1, 1, 0, 0, by decide, by decide, by decide, by decide⟩, old, 4, by decide⟩
    let q : Position :=
      ⟨⟨2, 1, 2, 0, by decide, by decide, by decide, by decide⟩, old, 4, by decide⟩
    ∃ o : Scope, c.Finds o .empty old new before after [i, d] ∧ p.StandsIn old before ∧
      q.StandsIn old before ∧ ∃ p' q', (p.apply c).Answers o .empty (some p') ∧
        (q.apply c).Answers o .empty (some q') ∧ p'.line < q'.line := by
  intro before after old new d i c p q
  have inMemory : ∀ f ∈ [c].flatMap Change.files, f.handle? = none := by
    simp [c, Change.files, old, new, File.handle?]
  let o : Scope := .ofChanges [c] (fun f hf _ _ _ some => absurd (inMemory f hf) some)
    (by simp)
  have finds : c.Finds o .empty old new before after [i, d] :=
    ⟨List.mem_singleton.mpr rfl, rfl, rfl, rfl, rfl, rfl⟩
  have hp : p.StandsIn old before := ⟨rfl, .inl rfl⟩
  have hq : q.StandsIn old before := ⟨rfl, .inl rfl⟩
  have layout : Layout.ofDiff [i, d] = ⟨[d], [i]⟩ := by
    show Layout.pair (Layout.byLine [d]) (Layout.byLine [i]) 0 0 = _
    rw [Layout.byLine_of_pairwise (by simp), Layout.byLine_of_pairwise (by simp),
      Layout.pair_of_gt (by decide), Layout.pair_nil]
  have moves : ∀ line, (Layout.ofDiff [i, d]).mapLine line = _ :=
    (Layout.sorted_ofDiff [i, d]).mapLine_eq
  obtain ⟨r, moved, landed⟩ := finds.lands (N := 2) hp (by rw [layout]; rfl)
    (by rw [moves, layout]; decide) (by decide)
  obtain ⟨s, moved', landed'⟩ := finds.lands (N := 3) hq (by rw [layout]; rfl)
    (by rw [moves, layout]; decide) (by decide)
  cases r with
  | none => exact absurd landed (by simp [Lands]; decide)
  | some p' =>
    cases s with
    | none => exact absurd landed' (by simp [Lands]; decide)
    | some q' =>
      obtain ⟨-, ordered, -⟩ := apply_keeps_order finds (by decide)
      exact ⟨o, finds, hp, hq, p', q', moved, moved',
        (ordered p q p' q' hp hq moved moved').1 (by decide)⟩

end Lineage
