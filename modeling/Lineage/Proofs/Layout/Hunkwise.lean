/-
# Pairing goes hunk by hunk

Every change of a diff is paired or left over, whatever the diff says (`Layout.perm_pairs`). Of a
computed diff it is known what is left over: in each hunk the last deletions, if there are more
deletions than insertions, and the last insertions, if there are more of those. So what is paired
are the first ones of each hunk, as many on both sides, and since pairs are made in order, each
deletion is paired with the insertion at its place in the same hunk (`Layout.Hunkwise.lineDiff`).

Key definitions: `Layout.pairs`, `Layout.Hunkwise`.
Key theorems: `Layout.perm_pairs`, `Layout.pairs_hunks`, `Layout.Hunkwise.lineDiff`,
`Change.pairs_hunkwise`.
-/
import Lineage.Proofs.Archive.Settling
import Lineage.Proofs.Diff.Replaying
import Lineage.Proofs.Layout.Moving
import Lineage.Proofs.Layout.Ordering
import Mathlib.Data.List.DropRight
import Mathlib.Data.List.Pairwise
import Mathlib.Data.List.Perm.Basic

namespace Lineage

/-! ### The changes of a hunk -/

namespace Hunk

/-- The deletions of a hunk. -/
def deletions (old : List (List Char)) (h : Hunk) : List LineChange :=
  part .delete old h.old

/-- The insertions of a hunk. -/
def insertions (new : List (List Char)) (h : Hunk) : List LineChange :=
  part .insert new h.new

theorem drop_numbered (kind : LineChange.Kind) : ∀ (n k : Nat) (ls : List (List Char)),
    (numbered kind k ls).drop n = numbered kind (k + n) (ls.drop n)
  | 0, _, _ => rfl
  | _ + 1, _, [] => rfl
  | n + 1, k, l :: ls => by
    rw [numbered, List.drop_succ_cons, drop_numbered kind n (k + 1) ls, List.drop_succ_cons,
      Nat.add_right_comm, Nat.add_assoc]

theorem surplus_eq_drop (kind : LineChange.Kind) (lines : List (List Char)) (s : Nat × Nat)
    (n : Nat) : surplus kind lines s n = (part kind lines s).drop n :=
  (drop_numbered kind n s.1 _).symm

theorem length_part (kind : LineChange.Kind) {lines : List (List Char)} {s : Nat × Nat}
    (end_le : s.2 ≤ lines.length) : (part kind lines s).length = s.2 - s.1 := by
  rw [part, length_numbered, length_stretch end_le]

theorem Tiles.length_changes {old new : List (List Char)} {i j : Nat} {hs : List Hunk}
    (tiles : Tiles old new i j hs) : ∀ h ∈ hs,
      (h.deletions old).length = h.oldSize ∧ (h.insertions new).length = h.newSize := by
  intro h hh
  obtain ⟨⟨-, oldEnd⟩, -, newEnd⟩ := tiles.valid h hh
  exact ⟨length_part .delete oldEnd, length_part .insert newEnd⟩

/-- A change is in one hunk only. -/
theorem eq_of_mem_parts {hs : List Hunk} {kind : LineChange.Kind} {lines : List (List Char)}
    {f : Hunk → Nat × Nat} (apart : hs.Pairwise fun h h' => (f h).2 < (f h').1) {h h' : Hunk}
    (hh : h ∈ hs) (hh' : h' ∈ hs) {c : LineChange} (hc : c ∈ part kind lines (f h))
    (hc' : c ∈ part kind lines (f h')) : h = h' := by
  have here := line_of_mem_part hc
  have there := line_of_mem_part hc'
  let Apart := fun h h' : Hunk => (f h).2 < (f h').1 ∨ (f h').2 < (f h).1
  have symmetric : Std.Symm Apart := ⟨fun _ _ => Or.symm⟩
  have beside : hs.Pairwise Apart := apart.imp Or.inl
  by_contra ne
  rcases beside.forall hh hh' ne with lt | lt <;> omega

end Hunk

/-! ### Pairs -/

namespace Layout

open Hunk

/-- The pairs that `pair` sets aside. -/
def pairs (deletions insertions : List LineChange) (deleted inserted : Int) :
    List (LineChange × LineChange) :=
  match deletions, insertions with
  | [], _ => []
  | _ :: _, [] => []
  | d :: ds, i :: is =>
    if d.line + inserted = i.line + deleted then (d, i) :: pairs ds is deleted inserted
    else if d.line + inserted < i.line + deleted then pairs ds (i :: is) (deleted + 1) inserted
    else pairs (d :: ds) is deleted (inserted + 1)
termination_by deletions.length + insertions.length

/-- The pairs of a diff. -/
def pairsOf (diff : List LineChange) : List (LineChange × LineChange) :=
  pairs (byLine (diff.filter LineChange.isDelete)) (byLine (diff.filter LineChange.isInsert)) 0 0

theorem pairs_sublist (deletions insertions : List LineChange) (deleted inserted : Int) :
    ((pairs deletions insertions deleted inserted).map Prod.fst).Sublist deletions ∧
      ((pairs deletions insertions deleted inserted).map Prod.snd).Sublist insertions := by
  fun_induction pairs deletions insertions deleted inserted with
  | case1 => exact ⟨.slnil, List.nil_sublist _⟩
  | case2 => exact ⟨List.nil_sublist _, .slnil⟩
  | case3 _ _ _ _ _ _ _ ih => exact ⟨ih.1.cons_cons _, ih.2.cons_cons _⟩
  | case4 _ _ _ _ _ _ _ _ ih => exact ⟨ih.1.cons _, ih.2⟩
  | case5 _ _ _ _ _ _ _ _ ih => exact ⟨ih.1, ih.2.cons _⟩

/-- Every change is paired or left over. -/
theorem perm_pairs (deletions insertions : List LineChange) (deleted inserted : Int) :
    ((pairs deletions insertions deleted inserted).map Prod.fst ++
        (pair deletions insertions deleted inserted).deletions).Perm deletions ∧
      ((pairs deletions insertions deleted inserted).map Prod.snd ++
        (pair deletions insertions deleted inserted).insertions).Perm insertions := by
  fun_induction pairs deletions insertions deleted inserted with
  | case1 => rw [pair]; exact ⟨.refl _, .refl _⟩
  | case2 => rw [pair_nil]; exact ⟨.refl _, .refl _⟩
  | case3 _ _ d _ i _ same ih =>
    rw [pair_of_eq same]
    exact ⟨ih.1.cons d, ih.2.cons i⟩
  | case4 _ _ d _ i _ _ lt ih =>
    rw [pair_of_lt lt]
    exact ⟨List.perm_middle.trans (ih.1.cons d), ih.2⟩
  | case5 _ _ d _ i _ ne not_lt ih =>
    rw [pair_of_gt (Int.lt_iff_le_and_ne.mpr ⟨Int.not_lt.mp not_lt, Ne.symm ne⟩)]
    exact ⟨ih.1, List.perm_middle.trans (ih.2.cons i)⟩

/-- Every deletion and every insertion of a diff is paired or left over. -/
theorem perm_pairsOf (diff : List LineChange) :
    ((pairsOf diff).map Prod.fst ++ (ofDiff diff).deletions).Perm
        (diff.filter LineChange.isDelete) ∧
      ((pairsOf diff).map Prod.snd ++ (ofDiff diff).insertions).Perm
        (diff.filter LineChange.isInsert) := by
  have all := perm_pairs (byLine (diff.filter LineChange.isDelete))
    (byLine (diff.filter LineChange.isInsert)) 0 0
  exact ⟨all.1.trans (byLine_perm _), all.2.trans (byLine_perm _)⟩

/-! ### The pairs of hunks -/

theorem drop_eq_rtake {α : Type} (xs : List α) (n : Nat) :
    xs.drop n = xs.rtake (xs.length - n) := by
  unfold List.rtake
  rcases Nat.le_total n xs.length with le | le
  · rw [Nat.sub_sub_self le]
  · rw [Nat.sub_eq_zero_of_le le, Nat.sub_zero, List.drop_length, List.drop_eq_nil_of_le le]

theorem zip_take {α β : Type} (xs : List α) (ys : List β) :
    (xs.take ys.length).zip (ys.take xs.length) = xs.zip ys := by
  have left : xs.take ys.length = xs.take (min xs.length ys.length) :=
    List.take_eq_take_iff.mpr (by omega)
  have right : ys.take xs.length = ys.take (min xs.length ys.length) :=
    List.take_eq_take_iff.mpr (by omega)
  rw [left, right, ← List.zip_eq_zip_take_min]

/-- Lists that are joined from parts of the same lengths are zipped part by part. -/
theorem zip_flatMap {α β γ : Type} {f : α → List β} {g : α → List γ} : ∀ {hs : List α},
    (∀ h ∈ hs, (f h).length = (g h).length) →
      (hs.flatMap f).zip (hs.flatMap g) = hs.flatMap fun h => (f h).zip (g h)
  | [], _ => rfl
  | h :: hs, same => by
    rw [List.flatMap_cons, List.flatMap_cons, List.flatMap_cons,
      List.zip_append (same h List.mem_cons_self),
      zip_flatMap fun h' hh' => same h' (List.mem_cons_of_mem h hh')]

variable {old new lines : List (List Char)} {hs : List Hunk}

/-- On one side of hunks, what is paired is what is not left over: the first changes of each. -/
theorem eq_take_of_surplus {kind : LineChange.Kind} {f : Hunk → Nat × Nat} {size : Hunk → Nat}
    (apart : hs.Pairwise fun h h' => (f h).2 < (f h').1) {paired : List LineChange}
    (sub : paired.Sublist (hs.flatMap fun h => part kind lines (f h)))
    (all : (paired ++ hs.flatMap fun h => surplus kind lines (f h) (size h)).Perm
      (hs.flatMap fun h => part kind lines (f h))) :
    paired = hs.flatMap fun h => (part kind lines (f h)).take (size h) := by
  let first := fun h => (part kind lines (f h)).take (size h)
  have order := pairwise_part kind lines apart
  have taken : (hs.flatMap first).Sublist (hs.flatMap fun h => part kind lines (f h)) :=
    .flatMap_right hs fun h _ => List.take_sublist (size h) _
  have both : (hs.flatMap first ++ hs.flatMap fun h => surplus kind lines (f h) (size h)).Perm
      (hs.flatMap fun h => part kind lines (f h)) := by
    refine (List.flatMap_append_perm hs first _).trans (.of_eq (List.flatMap_congr fun h _ => ?_))
    rw [surplus_eq_drop, List.take_append_drop]
  -- in the order of their lines, the same changes are the same list
  have perm : paired.Perm (hs.flatMap first) :=
    (List.perm_append_right_iff _).mp (all.trans both.symm)
  exact perm.eq_of_pairwise (fun c d _ _ lt gt => absurd gt (Int.lt_asymm lt)) (order.sublist sub)
    (order.sublist taken)

/-- Pairs are made of deletions and insertions at the same places of the same hunks. -/
theorem pairs_hunks {i j : Nat} (tiles : Tiles old new i j hs) {deleted inserted : Int}
    (balance : deleted + j = inserted + i) :
    pairs (hs.flatMap (Hunk.deletions old)) (hs.flatMap (Hunk.insertions new)) deleted inserted =
      hs.flatMap fun h => (h.deletions old).zip (h.insertions new) := by
  let ps := pairs (hs.flatMap (Hunk.deletions old)) (hs.flatMap (Hunk.insertions new))
    deleted inserted
  have left : pair (hs.flatMap (Hunk.deletions old)) (hs.flatMap (Hunk.insertions new))
      deleted inserted = ofHunks old new hs := pair_hunks tiles balance
  have all := perm_pairs (hs.flatMap (Hunk.deletions old)) (hs.flatMap (Hunk.insertions new))
    deleted inserted
  have sub := pairs_sublist (hs.flatMap (Hunk.deletions old)) (hs.flatMap (Hunk.insertions new))
    deleted inserted
  rw [left] at all
  -- what is left over is known hunk by hunk, and with it what is paired on each side
  have oldSide : ps.map Prod.fst = hs.flatMap fun h => (h.deletions old).take h.newSize :=
    eq_take_of_surplus (tiles.pairwise.imp And.left) sub.1 all.1
  have newSide : ps.map Prod.snd = hs.flatMap fun h => (h.insertions new).take h.oldSize :=
    eq_take_of_surplus (tiles.pairwise.imp And.right) sub.2 all.2
  have sizes := tiles.length_changes
  have level : ∀ h ∈ hs, ((h.deletions old).take h.newSize).length =
      ((h.insertions new).take h.oldSize).length := by
    intro h hh
    rw [List.length_take, List.length_take, (sizes h hh).1, (sizes h hh).2, Nat.min_comm]
  calc ps = (ps.map Prod.fst).zip (ps.map Prod.snd) := List.zip_of_prod rfl rfl
    _ = hs.flatMap fun h =>
          ((h.deletions old).take h.newSize).zip ((h.insertions new).take h.oldSize) := by
        rw [oldSide, newSide, zip_flatMap level]
    _ = hs.flatMap fun h => (h.deletions old).zip (h.insertions new) := by
        refine List.flatMap_congr fun h hh => ?_
        rw [← (sizes h hh).1, ← (sizes h hh).2, zip_take]

/-- What is left over on one side of hunks has nothing of a hunk that leaves nothing there. -/
theorem not_mem_rtake {kind : LineChange.Kind} {f : Hunk → Nat × Nat} {n : Hunk → Nat}
    (apart : hs.Pairwise fun h h' => (f h).2 < (f h').1) {h : Hunk} (hh : h ∈ hs) (none : n h = 0)
    {c : LineChange} (hc : c ∈ part kind lines (f h)) :
    c ∉ hs.flatMap fun h => (part kind lines (f h)).rtake (n h) := by
  intro left
  obtain ⟨h', hh', last⟩ := List.mem_flatMap.mp left
  obtain rfl := eq_of_mem_parts apart hh hh' hc (List.mem_of_mem_drop last)
  rw [none, List.rtake_zero] at last
  cases last

/-- How pairing takes the diff of two lists of lines apart, hunk by hunk. -/
structure Hunkwise (old new : List (List Char)) (hs : List Hunk) (diff : List LineChange) :
    Prop where
  hunks : diff = hs.flatMap fun h => h.deletions old ++ h.insertions new
  sizes : ∀ h ∈ hs, (h.deletions old).length = h.oldSize ∧ (h.insertions new).length = h.newSize
  /-- Each hunk leaves over as many of its last deletions as it has more than insertions. -/
  deletions : (ofDiff diff).deletions =
    hs.flatMap fun h => (h.deletions old).rtake (h.oldSize - h.newSize)
  /-- Each hunk leaves over as many of its last insertions as it has more than deletions. -/
  insertions : (ofDiff diff).insertions =
    hs.flatMap fun h => (h.insertions new).rtake (h.newSize - h.oldSize)
  inOrder : ((ofDiff diff).deletions.Pairwise fun c d => c.line < d.line) ∧
    (ofDiff diff).insertions.Pairwise fun c d => c.line < d.line
  oneSided : ∀ h ∈ hs, (∀ c ∈ h.deletions old, c ∉ (ofDiff diff).deletions) ∨
    ∀ c ∈ h.insertions new, c ∉ (ofDiff diff).insertions
  pairs : pairsOf diff = hs.flatMap fun h => (h.deletions old).zip (h.insertions new)
  /-- Whatever is not left over is paired. -/
  rest : ((pairsOf diff).map Prod.fst ++ (ofDiff diff).deletions).Perm
      (diff.filter LineChange.isDelete) ∧
    ((pairsOf diff).map Prod.snd ++ (ofDiff diff).insertions).Perm
      (diff.filter LineChange.isInsert)
  /-- A deletion and an insertion that are paired are in the same hunk. -/
  within : ∀ d i, (d, i) ∈ pairsOf diff → ∀ h ∈ hs, d ∈ h.deletions old ↔ i ∈ h.insertions new

/-- The diff of two lists of lines is paired hunk by hunk. -/
theorem Hunkwise.lineDiff (old new : List (List Char)) :
    Hunkwise old new (between old new) (lineDiff old new) := by
  have tiles := tiles_between old new
  have oldApart := tiles.pairwise.imp And.left
  have newApart := tiles.pairwise.imp And.right
  have ordered := ordered_ofHunks tiles
  have layout := ofDiff_lineDiff old new
  have sizes := tiles.length_changes
  have deletions : (ofDiff (Lineage.lineDiff old new)).deletions =
      (between old new).flatMap fun h => (h.deletions old).rtake (h.oldSize - h.newSize) := by
    rw [layout]
    refine List.flatMap_congr fun h hh => ?_
    rw [surplus_eq_drop, drop_eq_rtake, ← (sizes h hh).1]
    rfl
  have insertions : (ofDiff (Lineage.lineDiff old new)).insertions =
      (between old new).flatMap fun h => (h.insertions new).rtake (h.newSize - h.oldSize) := by
    rw [layout]
    refine List.flatMap_congr fun h hh => ?_
    rw [surplus_eq_drop, drop_eq_rtake, ← (sizes h hh).2]
    rfl
  have pairs : pairsOf (Lineage.lineDiff old new) =
      (between old new).flatMap fun h => (h.deletions old).zip (h.insertions new) := by
    unfold pairsOf
    rw [byLine_deletions, byLine_insertions]
    exact pairs_hunks tiles rfl
  refine ⟨rfl, sizes, deletions, insertions, ?_, fun h hh => ?_, pairs, perm_pairsOf _,
    fun d i mem h hh => ?_⟩
  · rw [layout]
    exact ⟨ordered.deletions, ordered.insertions⟩
  · rw [deletions, insertions]
    rcases Nat.le_total h.oldSize h.newSize with le | le
    · exact .inl fun c hc => not_mem_rtake oldApart hh (Nat.sub_eq_zero_of_le le) hc
    · exact .inr fun c hc => not_mem_rtake newApart hh (Nat.sub_eq_zero_of_le le) hc
  · rw [pairs] at mem
    obtain ⟨h', hh', zipped⟩ := List.mem_flatMap.mp mem
    obtain ⟨hd, hi⟩ := List.of_mem_zip zipped
    constructor
    · intro here
      obtain rfl := eq_of_mem_parts oldApart hh hh' here hd
      exact hi
    · intro here
      obtain rfl := eq_of_mem_parts newApart hh hh' here hi
      exact hd

end Layout

/-! ### The diff of a change -/

namespace Change

open Text (plainLines)

/-- A diff that a change computes is paired hunk by hunk. A hunk with more deletions than
insertions leaves its last deletions over, as many as it has more, and one with more insertions its
last insertions; all others are paired with each other, at the same places of the same hunk. What
is left over makes up for the growth of the file. -/
theorem pairs_hunkwise {c : Change} {a : Archive} {diff : List LineChange}
    (hc : c.origin = .compared) (sourced : c.Sourced a) (hd : c.diff.answer a = .ok diff) :
    ∃ before after, (sideText c.old).Settled (c.diff.after a) before ∧
      (sideText c.new).Settled (c.diff.after a) after ∧
        Layout.Hunkwise (plainLines before) (plainLines after)
          (Hunk.between (plainLines before) (plainLines after)) diff ∧
        c.delta.answer a = .ok (((Layout.ofDiff diff).insertions.length : Int) -
          (Layout.ofDiff diff).deletions.length) := by
  have kept := (Change.after_diff hc a).2 diff hd
  obtain ⟨before, after, same, oldText, newText⟩ := (sourced.after_diff hc).texts hc kept
  refine ⟨before, after, oldText, newText, same ▸ .lineDiff _ _, ?_⟩
  unfold delta
  rw [Work.answer_bind_ok hd, Work.answer_pure, Layout.balance_ofDiff]

/-- A hunk that drops two lines, and below it one that brings a line. -/
theorem pairs_hunkwise_both :
    let before := ['a', '\n', 'b', '\n', 'c', '\n', 'k', '\n', 'd', '\n']
    let after := ['x', '\n', 'k', '\n', 'y', '\n', 'z', '\n']
    let old : File := ⟨⟨"a", "r1"⟩, .memory before⟩
    let new : File := ⟨⟨"a", "r2"⟩, .memory after⟩
    let c : Change := ⟨0, some old, some new, .compared⟩
    c.Sourced .empty ∧ ∃ diff, c.diff.answer .empty = .ok diff ∧
      (Layout.ofDiff diff).deletions.map LineChange.line = [2, 3] ∧
        (Layout.ofDiff diff).insertions.map LineChange.line = [4] ∧
          (Layout.pairsOf diff).map (fun p => (p.1.line, p.2.line)) = [(1, 1), (5, 3)] ∧
            c.delta.answer .empty = .ok (-1) := by
  intro before after old new c
  have sourced : c.Sourced .empty := sourced_of_unkept rfl
  have files : c.old ≠ none ∨ c.new ≠ none := .inl (Option.some_ne_none old)
  have apart : ∀ f ∈ c.old, ∀ g ∈ c.new, f.OneHandle g := by
    rintro f ⟨⟩ g ⟨⟩ _ some
    exact absurd rfl some
  have oldRead : (sideText c.old).answer .empty = .ok before := rfl
  have newRead : (sideText c.new).answer .empty = .ok after := rfl
  obtain ⟨diff, answer⟩ : ∃ diff, c.diff.answer .empty = .ok diff :=
    ⟨_, (diff_of_texts rfl files apart sourced oldRead newRead).1⟩
  obtain ⟨_, _, oldText, newText, byHunk, delta⟩ := pairs_hunkwise rfl sourced answer
  obtain rfl : before = _ := Except.ok.inj oldText.answer
  obtain rfl : after = _ := Except.ok.inj newText.answer
  have deletions : (Layout.ofDiff diff).deletions.map LineChange.line = [2, 3] := by
    rw [byHunk.deletions]
    decide +kernel
  have insertions : (Layout.ofDiff diff).insertions.map LineChange.line = [4] := by
    rw [byHunk.insertions]
    decide +kernel
  refine ⟨sourced, diff, answer, deletions, insertions, ?_, ?_⟩
  · rw [byHunk.pairs]
    decide +kernel
  · rw [delta, ← List.length_map LineChange.line, insertions, ← List.length_map LineChange.line,
      deletions]
    rfl

end Change
end Lineage
