/-
# Layouts keep lines in order

Whatever a diff says, its layout is sorted, and it drops no line twice if the diff does
not delete a line twice. Between two lines there are fewer dropped lines than lines, if
the second one is not dropped, so less is taken off behind them than lies between them;
and an insertion that comes in time for a line comes in time for every later one. So a
layout moves a line that is not dropped further than all lines before it
(`Layout.Sorted.mapLine_lt`), and to a line that there is (`Layout.Sorted.mapLine_inside`).

Lines above all changes stay, and lines below all changes move by the balance of the diff.

Key theorems: `Layout.sorted_ofDiff`, `Layout.Sorted.mapLine_lt`, `Layout.Sorted.mapLine_inside`,
`Layout.Sorted.mapLine_above`, `Layout.Ordered.mapLine_below`.
-/
import Lineage.Change.Basic
import Lineage.Proofs.Layout.Shifting
import Mathlib.Data.Finset.Card
import Mathlib.Data.Finset.Dedup
import Mathlib.Data.Int.Interval

namespace Lineage.Layout

/-! ### The layout of any diff -/

theorem pair_sublist (deletions insertions : List LineChange) (deleted inserted : Int) :
    (pair deletions insertions deleted inserted).deletions.Sublist deletions ∧
      (pair deletions insertions deleted inserted).insertions.Sublist insertions := by
  fun_induction pair deletions insertions deleted inserted with
  | case1 => exact ⟨.slnil, .refl _⟩
  | case2 => exact ⟨.refl _, .slnil⟩
  | case3 _ _ _ _ _ _ _ ih => exact ⟨ih.1.cons _, ih.2.cons _⟩
  | case4 _ _ _ _ _ _ _ _ rest ih => exact ⟨ih.1.cons_cons _, ih.2⟩
  | case5 _ _ _ _ _ _ _ _ rest ih => exact ⟨ih.1, ih.2.cons_cons _⟩

theorem balance_pair (deletions insertions : List LineChange) (deleted inserted : Int) :
    ((pair deletions insertions deleted inserted).insertions.length : Int) -
        (pair deletions insertions deleted inserted).deletions.length =
      (insertions.length : Int) - deletions.length := by
  fun_induction pair deletions insertions deleted inserted with
  | case1 => rfl
  | case2 => rfl
  | case3 _ _ _ _ _ _ _ ih =>
    rw [ih, List.length_cons, List.length_cons]
    omega
  | case4 _ _ _ _ _ _ _ _ rest ih =>
    simp only [rest, List.length_cons] at ih ⊢
    omega
  | case5 _ _ _ _ _ _ _ _ rest ih =>
    simp only [rest, List.length_cons] at ih ⊢
    omega

section OfDiff

variable {diff : List LineChange}

theorem mem_deletions_ofDiff {c : LineChange} (h : c ∈ (ofDiff diff).deletions) :
    c ∈ diff.filter LineChange.isDelete :=
  (byLine_perm _).mem_iff.mp ((pair_sublist _ _ 0 0).1.subset h)

theorem mem_insertions_ofDiff {c : LineChange} (h : c ∈ (ofDiff diff).insertions) :
    c ∈ diff.filter LineChange.isInsert :=
  (byLine_perm _).mem_iff.mp ((pair_sublist _ _ 0 0).2.subset h)

/-- The layout of a diff is sorted, whatever the diff says. -/
theorem sorted_ofDiff (diff : List LineChange) : (ofDiff diff).Sorted where
  deletes c hc := by
    have delete := (List.mem_filter.mp (mem_deletions_ofDiff hc)).2
    refine ⟨delete, ?_⟩
    unfold LineChange.isInsert
    rw [eq_of_beq delete]
    rfl
  inserts c hc := by
    have insert := (List.mem_filter.mp (mem_insertions_ofDiff hc)).2
    refine ⟨insert, ?_⟩
    unfold LineChange.isDelete
    rw [eq_of_beq insert]
    rfl
  deletions := (pairwise_le_byLine _).sublist (pair_sublist _ _ 0 0).1
  insertions := (pairwise_le_byLine _).sublist (pair_sublist _ _ 0 0).2

theorem nodup_deletions_ofDiff
    (once : ((diff.filter LineChange.isDelete).map LineChange.line).Nodup) :
    ((ofDiff diff).deletions.map LineChange.line).Nodup :=
  (((byLine_perm _).map LineChange.line).nodup_iff.mpr once).sublist
    ((pair_sublist _ _ 0 0).1.map LineChange.line)

theorem balance_ofDiff (diff : List LineChange) :
    ((ofDiff diff).insertions.length : Int) - (ofDiff diff).deletions.length =
      Change.balance diff := by
  unfold ofDiff Change.balance
  rw [balance_pair, (byLine_perm _).length_eq, (byLine_perm _).length_eq,
    List.countP_eq_length_filter, List.countP_eq_length_filter]

end OfDiff

/-! ### Lines in order -/

theorem length_lt_of_nodup {a b : Int} (lt : a < b) {xs : List Int} (distinct : xs.Nodup)
    (between : ∀ x ∈ xs, a < x ∧ x < b) : (xs.length : Int) < b - a := by
  have inside : xs.toFinset ⊆ Finset.Ioo a b := fun x hx =>
    Finset.mem_Ioo.mpr (between x (List.mem_toFinset.mp hx))
  have le := Finset.card_le_card inside
  rw [List.toFinset_card_of_nodup distinct, Int.card_Ioo] at le
  omega

section UpTo

variable {cs : List LineChange} {a b : Int}

theorem upTo_add (le : a ≤ b) :
    upTo b cs = upTo a cs + cs.countP fun c => c.isDelete && decide (a < c.line ∧ c.line ≤ b) := by
  unfold upTo
  induction cs with
  | nil => rfl
  | cons c cs ih =>
    rw [List.countP_cons, List.countP_cons, List.countP_cons, ih]
    cases c.isDelete with
    | false => simp
    | true =>
      simp only [Bool.true_and, decide_eq_true_eq]
      split <;> split <;> split <;> omega

theorem upTo_mono (le : a ≤ b) : upTo a cs ≤ upTo b cs := by
  rw [upTo_add le]
  exact Nat.le_add_right _ _

variable (distinct : (cs.map LineChange.line).Nodup)
include distinct

/-- Changes of different lines that lie between two lines are fewer than the distance. -/
theorem countP_lt {p : LineChange → Bool} (lt : a < b)
    (between : ∀ c ∈ cs, p c = true → a < c.line ∧ c.line < b) : (cs.countP p : Int) < b - a := by
  rw [List.countP_eq_length_filter, ← List.length_map LineChange.line]
  apply length_lt_of_nodup lt (distinct.sublist (List.filter_sublist.map _))
  intro x hx
  obtain ⟨c, hc, rfl⟩ := List.mem_map.mp hx
  obtain ⟨mem, chosen⟩ := List.mem_filter.mp hc
  exact between c mem chosen

theorem upTo_lt (lt : a < b) (kept : ∀ c ∈ cs, c.line ≠ b) :
    (upTo b cs : Int) < upTo a cs + (b - a) := by
  have few : ((cs.countP fun c => c.isDelete && decide (a < c.line ∧ c.line ≤ b) : Nat) : Int) <
      b - a := by
    apply countP_lt distinct lt
    intro c hc chosen
    have inside := of_decide_eq_true (Bool.and_eq_true_iff.mp chosen).2
    have ne := kept c hc
    omega
  rw [upTo_add (Int.le_of_lt lt)]
  omega

theorem upTo_le (le : a ≤ b) : (upTo b cs : Int) ≤ upTo a cs + (b - a) := by
  have few : ((cs.countP fun c => c.isDelete && decide (a < c.line ∧ c.line ≤ b) : Nat) : Int) <
      b + 1 - a := by
    apply countP_lt distinct (Int.lt_add_one_of_le le)
    intro c _ chosen
    have inside := of_decide_eq_true (Bool.and_eq_true_iff.mp chosen).2
    omega
  rw [upTo_add le]
  omega

end UpTo

/-- An insertion that comes in time for a line comes in time for a later one, if what is
deleted before it in between does not reach over the distance. -/
theorem counted_mono {a b : Int} {deleted deleted' : Int → Int}
    (near : ∀ x, deleted' x + a ≤ deleted x + b) : ∀ {inserted inserted' : Int} {xs : List Int},
    inserted ≤ inserted' → counted a deleted inserted xs ≤ counted b deleted' inserted' xs
  | _, _, [], le => le
  | inserted, inserted', x :: xs, le => by
    have here := near x
    rw [counted, counted]
    split
    next first =>
      rw [if_pos (by omega)]
      exact counted_mono near (by omega)
    next =>
      split
      · exact counted_mono near (by omega)
      · exact counted_mono near le

section Lines

variable {layout : Layout}

theorem deletes_eq_false {line : Int} :
    layout.deletes line = false ↔ ∀ c ∈ layout.deletions, c.line ≠ line := by
  unfold deletes
  rw [List.any_eq_false]
  simp only [beq_iff_eq, ne_eq]

/-- Of two lines, the second one not dropped, the second one is moved further. -/
theorem Sorted.mapLine_lt (h : layout.Sorted)
    (distinct : (layout.deletions.map LineChange.line).Nodup) {a b : Int} (lt : a < b)
    (kept : layout.deletes b = false) : layout.mapLine a < layout.mapLine b := by
  have fewer := upTo_lt distinct lt (deletes_eq_false.mp kept)
  have more : counted a (fun x => upTo (min x a) layout.deletions) 0
        (layout.insertions.map LineChange.line) ≤
      counted b (fun x => upTo (min x b) layout.deletions) 0
        (layout.insertions.map LineChange.line) := by
    apply counted_mono _ (Int.le_refl 0)
    intro x
    have near := upTo_le distinct (show min x a ≤ min x b by omega)
    omega
  rw [h.mapLine_eq, h.mapLine_eq]
  omega

/-- A line that is not dropped is moved to a line that there is: to the first one or further,
since fewer lines are dropped up to it than there are, and no further than the last one, since
all that is dropped behind it is among the lines behind it. -/
theorem Sorted.mapLine_inside (h : layout.Sorted)
    (distinct : (layout.deletions.map LineChange.line).Nodup) {line bound : Int}
    (deletions : ∀ c ∈ layout.deletions, c.line ≤ bound) (pos : 1 ≤ line) (le : line ≤ bound)
    (kept : layout.deletes line = false) :
    1 ≤ layout.mapLine line ∧
      layout.mapLine line ≤ bound + (layout.insertions.length - layout.deletions.length) := by
  have none : upTo 0 layout.deletions = 0 := by
    apply List.countP_eq_zero.mpr
    intro c _ both
    have reached := of_decide_eq_true (Bool.and_eq_true_iff.mp both).2
    have first := c.one_le_line
    omega
  have all : upTo bound layout.deletions = layout.deletions.length := by
    refine List.countP_eq_length.mpr fun c hc => ?_
    rw [(h.deletes c hc).1, Bool.true_and, decide_eq_true_eq]
    exact deletions c hc
  have above := upTo_lt distinct (show 0 < line by omega) (deletes_eq_false.mp kept)
  have below := upTo_le distinct le
  have least : 0 ≤ counted line (fun x => upTo (min x line) layout.deletions) 0
      (layout.insertions.map LineChange.line) := le_counted 0 _
  have most : counted line (fun x => upTo (min x line) layout.deletions) 0
      (layout.insertions.map LineChange.line) ≤ 0 + layout.insertions.length := by
    rw [← List.length_map LineChange.line]
    exact counted_le 0 _
  rw [h.mapLine_eq]
  omega

/-- A line above all changes stays where it is. -/
theorem Sorted.mapLine_above (h : layout.Sorted) {line : Int}
    (deletions : ∀ c ∈ layout.deletions, line < c.line)
    (insertions : ∀ c ∈ layout.insertions, line < c.line) :
    layout.deletes line = false ∧ layout.mapLine line = line := by
  have none : ∀ l ≤ line, upTo l layout.deletions = 0 := by
    intro l le
    apply List.countP_eq_zero.mpr
    intro c hc both
    have reached := of_decide_eq_true (Bool.and_eq_true_iff.mp both).2
    have below := deletions c hc
    omega
  have late : ∀ x ∈ layout.insertions.map LineChange.line,
      line + 0 < x + upTo (min x line) layout.deletions := by
    intro x hx
    obtain ⟨c, hc, rfl⟩ := List.mem_map.mp hx
    have below := insertions c hc
    omega
  refine ⟨deletes_eq_false.mpr fun c hc => Ne.symm (Int.ne_of_lt (deletions c hc)), ?_⟩
  rw [h.mapLine_eq, none line (Int.le_refl line), counted_eq_self late]
  omega

/-- A line below all changes moves by their balance. -/
theorem Ordered.mapLine_below (h : layout.Ordered) {line balance : Int}
    (total : (layout.insertions.length : Int) - layout.deletions.length = balance)
    (deletions : ∀ c ∈ layout.deletions, c.line < line)
    (insertions : ∀ c ∈ layout.insertions, c.line < line + balance) :
    layout.deletes line = false ∧ layout.mapLine line = line + balance := by
  let lines := layout.insertions.map LineChange.line
  have increasing : lines.Pairwise (· < ·) := List.pairwise_map.mpr h.insertions
  have size : lines.length = layout.insertions.length := List.length_map _
  have all : upTo line layout.deletions = layout.deletions.length := by
    refine List.countP_eq_length.mpr fun c hc => ?_
    rw [(h.deletes c hc).1, Bool.true_and, decide_eq_true_eq]
    exact Int.le_of_lt (deletions c hc)
  -- behind each insertion there must be room for those that follow it
  have inTime : ∀ (k : Nat) (x : Int), lines[k]? = some x →
      x + upTo (min x line) layout.deletions ≤ line + 0 + k := by
    intro k x hx
    obtain ⟨bound, hx⟩ := List.getElem?_eq_some_iff.mp hx
    have few : upTo (min x line) layout.deletions ≤ upTo line layout.deletions :=
      upTo_mono (by omega)
    have split := List.drop_eq_getElem_cons bound
    rw [hx] at split
    have rest : (x :: lines.drop (k + 1)).Pairwise (· < ·) :=
      split ▸ increasing.sublist (List.drop_sublist k lines)
    obtain ⟨first, rest⟩ := List.pairwise_cons.mp rest
    have last : ∀ y ∈ lines, y < line + balance := by
      intro y hy
      obtain ⟨c, hc, rfl⟩ := List.mem_map.mp hy
      exact insertions c hc
    have room := length_lt_of_nodup (last x (hx ▸ List.getElem_mem bound))
      (rest.imp Int.ne_of_lt) fun y hy => ⟨first y hy, last y (List.mem_of_mem_drop hy)⟩
    rw [List.length_drop] at room
    omega
  have counts := counted_append [] inTime
  rw [List.append_nil, counted, Int.zero_add] at counts
  refine ⟨deletes_eq_false.mpr fun c hc => Int.ne_of_lt (deletions c hc), ?_⟩
  rw [h.mapLine_eq, counts, all]
  omega

end Lines
end Lineage.Layout
