/-
# Pairing the changes of a diff

Pairing goes through the deletions and the insertions of a diff hunk by hunk. In a
hunk the k-th deleted line is paired with the k-th inserted one, and what is left
over stands on one side only: the old lines that the hunk drops, or the new lines
that it brings. What has been left over before makes up for the distance between
the places in both texts, so that no pair reaches across hunks.

Key definitions: `Hunk.part`, `Hunk.surplus`, `Layout.ofHunks`.
Key theorems: `Layout.pair_hunks`, `Layout.ofDiff_lineDiff`.
-/
import Lineage.Layout
import Lineage.Proofs.Diff.LineMap
import Mathlib.Data.List.Basic
import Mathlib.Data.List.Flatten

namespace Lineage

/-! ### Numbered line changes -/

namespace Hunk

theorem numbered_append (kind : LineChange.Kind) : ∀ (k : Nat) (ls ls' : List (List Char)),
    numbered kind k (ls ++ ls') = numbered kind k ls ++ numbered kind (k + ls.length) ls'
  | _, [], _ => rfl
  | k, l :: ls, ls' => by
    rw [List.cons_append, numbered, numbered, numbered_append kind (k + 1), List.cons_append,
      List.length_cons, Nat.add_right_comm, Nat.add_assoc]

theorem numbered_eq_append (kind : LineChange.Kind) (k n : Nat) (ls : List (List Char)) :
    numbered kind k ls = numbered kind k (ls.take n) ++ numbered kind (k + n) (ls.drop n) := by
  by_cases le : n ≤ ls.length
  · have parts := numbered_append kind k (ls.take n) (ls.drop n)
    rwa [List.take_append_drop, List.length_take, Nat.min_eq_left le] at parts
  · rw [List.take_of_length_le (by omega), List.drop_eq_nil_of_le (by omega), numbered,
      List.append_nil]

theorem line_numbered (kind : LineChange.Kind) : ∀ (k : Nat) (ls : List (List Char)),
    (numbered kind k ls).map LineChange.line =
      (List.range' (k + 1) ls.length).map fun n : Nat => (n : Int)
  | _, [] => rfl
  | k, l :: ls => by
    rw [numbered, List.map_cons, line_numbered kind (k + 1) ls, List.length_cons,
      List.range'_succ, List.map_cons]
    rfl

theorem kind_of_mem_numbered {kind : LineChange.Kind} {c : LineChange} :
    ∀ {k : Nat} {ls : List (List Char)}, c ∈ numbered kind k ls → c.kind = kind
  | _, [], h => by cases h
  | _, _ :: _, h => by
    rcases List.mem_cons.mp h with rfl | h
    · rfl
    · exact kind_of_mem_numbered h

theorem lt_of_mem_numbered {kind : LineChange.Kind} {c : LineChange} {k : Nat}
    {ls : List (List Char)} (h : c ∈ numbered kind k ls) :
    (k : Int) < c.line ∧ c.line ≤ k + ls.length := by
  have hl := List.mem_map_of_mem (f := LineChange.line) h
  rw [line_numbered] at hl
  obtain ⟨n, hn, e⟩ := List.mem_map.mp hl
  obtain ⟨le, lt⟩ := List.mem_range'_1.mp hn
  omega

theorem pairwise_numbered (kind : LineChange.Kind) (k : Nat) (ls : List (List Char)) :
    (numbered kind k ls).Pairwise fun c d => c.line < d.line := by
  have lines : ((numbered kind k ls).map LineChange.line).Pairwise (· < ·) := by
    rw [line_numbered, List.pairwise_map]
    exact List.Pairwise.imp Int.ofNat_lt.mpr List.pairwise_lt_range'
  exact List.pairwise_map.mp lines

/-- The lines of a stretch, each changed in the same way. -/
def part (kind : LineChange.Kind) (lines : List (List Char)) (s : Nat × Nat) : List LineChange :=
  numbered kind s.1 ((lines.take s.2).drop s.1)

/-- The changed lines of a stretch beyond the first `n` ones. -/
def surplus (kind : LineChange.Kind) (lines : List (List Char)) (s : Nat × Nat) (n : Nat) :
    List LineChange :=
  numbered kind (s.1 + n) (((lines.take s.2).drop s.1).drop n)

section Part

variable {kind : LineChange.Kind} {lines : List (List Char)} {s : Nat × Nat}

theorem length_stretch (end_le : s.2 ≤ lines.length) :
    ((lines.take s.2).drop s.1).length = s.2 - s.1 := by
  rw [List.length_drop, List.length_take, Nat.min_eq_left end_le]

theorem part_eq_append (kind : LineChange.Kind) (lines : List (List Char)) (s : Nat × Nat)
    (n : Nat) : part kind lines s =
      numbered kind s.1 (((lines.take s.2).drop s.1).take n) ++ surplus kind lines s n :=
  numbered_eq_append kind s.1 n _

theorem surplus_eq_nil {n : Nat} (end_le : s.2 ≤ lines.length) (all : s.2 - s.1 ≤ n) :
    surplus kind lines s n = [] := by
  have size := length_stretch (s := s) end_le
  rw [surplus, List.drop_eq_nil_of_le (by omega), numbered]

theorem line_of_mem_part {c : LineChange} (h : c ∈ part kind lines s) :
    (s.1 : Int) < c.line ∧ c.line ≤ s.2 := by
  have inside := lt_of_mem_numbered h
  rw [List.length_drop, List.length_take] at inside
  omega

theorem line_surplus {n : Nat} (end_le : s.2 ≤ lines.length) :
    (surplus kind lines s n).map LineChange.line =
      (List.range' (s.1 + n + 1) (s.2 - s.1 - n)).map fun n : Nat => (n : Int) := by
  rw [surplus, line_numbered, List.length_drop, length_stretch end_le]

end Part

end Hunk

/-! ### Pairing -/

namespace Layout

open Hunk

/-- The layout with deletions and insertions exchanged. -/
def swap (layout : Layout) : Layout :=
  ⟨layout.insertions, layout.deletions⟩

section Pair

variable {d i : LineChange} {ds is : List LineChange} {deleted inserted : Int}

theorem pair_nil (ds : List LineChange) (deleted inserted : Int) :
    pair ds [] deleted inserted = ⟨ds, []⟩ := by
  cases ds with
  | nil => rw [pair]
  | cons d ds => rw [pair]; simp

theorem pair_of_eq (h : d.line + inserted = i.line + deleted) :
    pair (d :: ds) (i :: is) deleted inserted = pair ds is deleted inserted := by
  rw [pair, if_pos h]

theorem pair_of_lt (h : d.line + inserted < i.line + deleted) :
    pair (d :: ds) (i :: is) deleted inserted =
      let rest := pair ds (i :: is) (deleted + 1) inserted
      ⟨d :: rest.deletions, rest.insertions⟩ := by
  rw [pair, if_neg (Int.ne_of_lt h), if_pos h]

theorem pair_of_gt (h : i.line + deleted < d.line + inserted) :
    pair (d :: ds) (i :: is) deleted inserted =
      let rest := pair (d :: ds) is deleted (inserted + 1)
      ⟨rest.deletions, i :: rest.insertions⟩ := by
  rw [pair, if_neg (Int.ne_of_gt h), if_neg (Int.not_lt.mpr (Int.le_of_lt h))]

/-- Pairing treats deletions and insertions alike. -/
theorem pair_swap (ds is : List LineChange) (deleted inserted : Int) :
    pair is ds inserted deleted = (pair ds is deleted inserted).swap := by
  fun_induction pair ds is deleted inserted with
  | case1 => rw [pair_nil]; rfl
  | case2 => rw [pair]; rfl
  | case3 _ _ _ _ _ _ same ih => rw [pair_of_eq same.symm, ih]
  | case4 _ _ _ _ _ _ _ lt rest ih => rw [pair_of_gt lt, ih]; rfl
  | case5 _ _ _ _ _ _ ne not_lt rest ih =>
    have lt := Int.lt_iff_le_and_ne.mpr ⟨Int.not_lt.mp not_lt, Ne.symm ne⟩
    rw [pair_of_lt lt, ih]
    rfl

theorem pair_same : ∀ (k k' : Nat) (ls ls' : List (List Char)), ls.length = ls'.length →
    k + inserted = k' + deleted →
      pair (numbered .delete k ls ++ ds) (numbered .insert k' ls' ++ is) deleted inserted =
        pair ds is deleted inserted
  | _, _, [], [], _, _ => rfl
  | k, k', l :: ls, l' :: ls', len, same => by
    have here : ((k : Int) + 1) + inserted = ((k' : Int) + 1) + deleted := by omega
    rw [numbered, numbered, List.cons_append, List.cons_append, pair_of_eq here]
    exact pair_same (k + 1) (k' + 1) ls ls' (Nat.succ.inj len) here

theorem pair_deletions (kind : LineChange.Kind) (ds is : List LineChange) {inserted : Int} :
    ∀ (k : Nat) (ls : List (List Char)) (deleted : Int),
      (∀ i ∈ is, (k : Int) + 1 + inserted < i.line + deleted) →
        pair (numbered kind k ls ++ ds) is deleted inserted =
          let rest := pair ds is (deleted + ls.length) inserted
          ⟨numbered kind k ls ++ rest.deletions, rest.insertions⟩
  | _, [], deleted, _ => by
    rw [List.length_nil, Int.natCast_zero, Int.add_zero]
    rfl
  | k, l :: ls, deleted, before => by
    cases is with
    | nil => rw [pair_nil, pair_nil]
    | cons i is =>
      have here := before i List.mem_cons_self
      have next : ∀ i' ∈ i :: is,
          ((k + 1 : Nat) : Int) + 1 + inserted < i'.line + (deleted + 1) := by
        intro i' hi
        have := before i' hi
        omega
      have rest := pair_deletions kind ds (i :: is) (k + 1) ls (deleted + 1) next
      have total : deleted + 1 + (ls.length : Int) = deleted + ((l :: ls).length : Int) := by
        rw [List.length_cons]
        omega
      rw [numbered, List.cons_append, pair_of_lt here, rest, total]
      rfl

theorem pair_insertions (kind : LineChange.Kind) (ds is : List LineChange) (k : Nat)
    (ls : List (List Char)) (before : ∀ d ∈ ds, (k : Int) + 1 + deleted < d.line + inserted) :
    pair ds (numbered kind k ls ++ is) deleted inserted =
      let rest := pair ds is deleted (inserted + ls.length)
      ⟨rest.deletions, numbered kind k ls ++ rest.insertions⟩ := by
  rw [pair_swap, pair_deletions kind is ds k ls inserted before, pair_swap]
  rfl

end Pair

variable {old new lines : List (List Char)} {i j : Nat} {hs : List Hunk}

/-- What both sides of a hunk have is set aside. -/
theorem pair_hunk {h : Hunk} (next : h.Follows old new i j) (ds is : List LineChange)
    {deleted inserted : Int} (balance : deleted + j = inserted + i) :
    pair (part .delete old h.old ++ ds) (part .insert new h.new ++ is) deleted inserted =
      pair (surplus .delete old h.old h.newSize ++ ds)
        (surplus .insert new h.new h.oldSize ++ is) deleted inserted := by
  have level := next.level
  have oldLength : ((old.take h.old.2).drop h.old.1).length = h.oldSize :=
    length_stretch next.oldEnd
  have newLength : ((new.take h.new.2).drop h.new.1).length = h.newSize :=
    length_stretch next.newEnd
  rw [part_eq_append .delete old h.old h.newSize, part_eq_append .insert new h.new h.oldSize,
    List.append_assoc, List.append_assoc]
  apply pair_same
  · rw [List.length_take, List.length_take, oldLength, newLength, Nat.min_comm]
  · show (h.oldStart : Int) + inserted = h.newStart + deleted
    omega

/-- What hunks change lies further down than where they all start. -/
theorem lt_line_of_far {kind : LineChange.Kind} {f : Hunk → Nat × Nat} {n : Nat}
    (far : ∀ h ∈ hs, n < (f h).1) {c : LineChange}
    (hc : c ∈ hs.flatMap fun h => part kind lines (f h)) : (n : Int) + 1 < c.line := by
  obtain ⟨h, hh, hc⟩ := List.mem_flatMap.mp hc
  have start := far h hh
  have inside := (line_of_mem_part hc).1
  omega

/-- The layout that hunks between two lists of lines have. -/
def ofHunks (old new : List (List Char)) (hs : List Hunk) : Layout :=
  ⟨hs.flatMap fun h => surplus .delete old h.old h.newSize,
    hs.flatMap fun h => surplus .insert new h.new h.oldSize⟩

/-- Pairing leaves over what each hunk has on one side only. -/
theorem pair_hunks (tiles : Tiles old new i j hs) : ∀ {deleted inserted : Int},
    deleted + j = inserted + i →
      pair (hs.flatMap fun h => part .delete old h.old) (hs.flatMap fun h => part .insert new h.new)
        deleted inserted = ofHunks old new hs := by
  induction tiles with
  | nil => exact fun _ => pair_nil [] _ _
  | @cons i j h hs next apart rest ih =>
    intro deleted inserted balance
    have level := next.level
    have oldStop := next.oldStop
    have newStop := next.newStop
    have beyond := (Tiles.cons next apart rest).apart
    have oldSize : h.oldSize = h.oldStop - h.oldStart := rfl
    have newSize : h.newSize = h.newStop - h.newStart := rfl
    have oldLength := length_stretch (s := h.old) next.oldEnd
    have newLength := length_stretch (s := h.new) next.newEnd
    unfold ofHunks at ih ⊢
    rw [List.flatMap_cons, List.flatMap_cons, List.flatMap_cons, List.flatMap_cons,
      pair_hunk next _ _ balance]
    by_cases less : h.oldSize ≤ h.newSize
    · have none : surplus .delete old h.old h.newSize = [] := surplus_eq_nil next.oldEnd less
      have before : ∀ d ∈ hs.flatMap fun h => part .delete old h.old,
          ((h.new.1 + h.oldSize : Nat) : Int) + 1 + deleted < d.line + inserted := by
        intro d hd
        have far := lt_line_of_far (fun h' hh' => (beyond h' hh').1) hd
        simp only [Hunk.new]
        omega
      rw [none, List.nil_append, List.nil_append, surplus, pair_insertions _ _ _ _ _ before, ih]
      rw [List.length_drop, newLength]
      simp only [Hunk.new]
      omega
    · have none : surplus .insert new h.new h.oldSize = [] :=
        surplus_eq_nil next.newEnd (Nat.le_of_not_le less)
      have before : ∀ i ∈ hs.flatMap fun h => part .insert new h.new,
          ((h.old.1 + h.newSize : Nat) : Int) + 1 + inserted < i.line + deleted := by
        intro i hi
        have far := lt_line_of_far (fun h' hh' => (beyond h' hh').2) hi
        simp only [Hunk.old]
        omega
      rw [none, List.nil_append, List.nil_append, surplus, pair_deletions _ _ _ _ _ _ before, ih]
      rw [List.length_drop, oldLength]
      simp only [Hunk.old]
      omega

/-! ### The layout of a diff -/

theorem byLine_of_pairwise {cs : List LineChange}
    (h : cs.Pairwise fun c d => c.line < d.line) : byLine cs = cs :=
  List.mergeSort_of_pairwise (h.imp fun lt => decide_eq_true (Int.le_of_lt lt))

section Sides

variable {f : Hunk → Nat × Nat}

theorem pairwise_part (kind : LineChange.Kind) (lines : List (List Char))
    (apart : hs.Pairwise fun h h' => (f h).2 < (f h').1) :
    (hs.flatMap fun h => part kind lines (f h)).Pairwise fun c d => c.line < d.line := by
  refine List.pairwise_flatMap.mpr ⟨fun h _ => pairwise_numbered _ _ _, apart.imp ?_⟩
  intro h h' lt c hc d hd
  have left := (line_of_mem_part hc).2
  have right := (line_of_mem_part hd).1
  omega

theorem pairwise_surplus (kind : LineChange.Kind) (lines : List (List Char))
    (apart : hs.Pairwise fun h h' => (f h).2 < (f h').1) (size : Hunk → Nat) :
    (hs.flatMap fun h => surplus kind lines (f h) (size h)).Pairwise
      fun c d => c.line < d.line := by
  refine (pairwise_part kind lines apart).sublist (List.Sublist.flatMap_right hs fun h _ => ?_)
  rw [part_eq_append kind lines (f h) (size h)]
  exact List.sublist_append_right _ _

theorem byLine_part (kind : LineChange.Kind) (lines : List (List Char))
    (apart : hs.Pairwise fun h h' => (f h).2 < (f h').1) :
    byLine (hs.flatMap fun h => part kind lines (f h)) =
      hs.flatMap fun h => part kind lines (f h) :=
  byLine_of_pairwise (pairwise_part kind lines apart)

theorem line_excess (kind : LineChange.Kind) {lines : List (List Char)}
    (ends : ∀ h ∈ hs, (f h).2 ≤ lines.length) (other : Hunk → Nat × Nat) :
    (hs.flatMap fun h => surplus kind lines (f h) ((other h).2 - (other h).1)).map
        LineChange.line =
      (hs.flatMap (excess f other)).map fun n : Nat => (n : Int) := by
  rw [List.map_flatMap, List.map_flatMap]
  exact List.flatMap_congr fun h hh => line_surplus (ends h hh)

end Sides

theorem flags_of_mem {kind : LineChange.Kind} {k : Nat} {ls : List (List Char)} {c : LineChange}
    (h : c ∈ numbered kind k ls) :
    c.isDelete = (kind == .delete) ∧ c.isInsert = (kind == .insert) := by
  unfold LineChange.isDelete LineChange.isInsert
  rw [kind_of_mem_numbered h]
  exact ⟨rfl, rfl⟩

theorem filter_isDelete (hs : List Hunk) :
    (hs.flatMap (changes old new)).filter LineChange.isDelete =
      hs.flatMap fun h => part .delete old h.old := by
  rw [List.filter_flatMap]
  apply List.flatMap_congr
  intro h _
  rw [changes, List.filter_append, List.filter_eq_self.mpr fun c hc => (flags_of_mem hc).1,
    List.filter_eq_nil_iff.mpr fun c hc => by simp [(flags_of_mem hc).1], List.append_nil]
  rfl

theorem filter_isInsert (hs : List Hunk) :
    (hs.flatMap (changes old new)).filter LineChange.isInsert =
      hs.flatMap fun h => part .insert new h.new := by
  rw [List.filter_flatMap]
  apply List.flatMap_congr
  intro h _
  rw [changes, List.filter_append, List.filter_eq_nil_iff.mpr fun c hc => by
    simp [(flags_of_mem hc).2], List.filter_eq_self.mpr fun c hc => (flags_of_mem hc).2,
    List.nil_append]
  rfl

theorem byLine_deletions (old new : List (List Char)) :
    byLine ((lineDiff old new).filter LineChange.isDelete) =
      (between old new).flatMap fun h => part .delete old h.old := by
  rw [lineDiff, filter_isDelete]
  exact byLine_part .delete old ((tiles_between old new).pairwise.imp And.left)

theorem byLine_insertions (old new : List (List Char)) :
    byLine ((lineDiff old new).filter LineChange.isInsert) =
      (between old new).flatMap fun h => part .insert new h.new := by
  rw [lineDiff, filter_isInsert]
  exact byLine_part .insert new ((tiles_between old new).pairwise.imp And.right)

/-- The layout of a computed diff is the one of its hunks. -/
theorem ofDiff_lineDiff (old new : List (List Char)) :
    ofDiff (lineDiff old new) = ofHunks old new (between old new) := by
  unfold ofDiff
  rw [byLine_deletions, byLine_insertions]
  exact pair_hunks (tiles_between old new) rfl

theorem line_deletions (tiles : Tiles old new i j hs) :
    (ofHunks old new hs).deletions.map LineChange.line =
      (hs.flatMap dropped).map fun n : Nat => (n : Int) :=
  line_excess .delete (fun h hh => (tiles.valid h hh).1.2) Hunk.new

theorem line_insertions (tiles : Tiles old new i j hs) :
    (ofHunks old new hs).insertions.map LineChange.line =
      (hs.flatMap brought).map fun n : Nat => (n : Int) :=
  line_excess .insert (fun h hh => (tiles.valid h hh).2.2) Hunk.old

end Layout
end Lineage
