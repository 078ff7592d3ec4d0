/-
# Where a layout moves a line

A layout moves a line up by the deletions up to it, and down by the insertions that
come no later than the line when its changes are taken in the order of their
numbers. Sorting keeps deletions before insertions of the same number, so an
insertion is moved by the deletions up to its own number, and by the insertions
counted before it.

Key definitions: `Layout.upTo`, `Layout.counted`, `Layout.Sorted`, `Layout.Ordered`.
Key theorems: `Layout.concerning_eq`, `Layout.Sorted.mapLine_eq`.
-/
import Lineage.Proofs.Layout.Pairing

namespace Lineage

/-! ### Counting in order -/

namespace Layout

/-- The number of deletions up to a line. -/
def upTo (line : Int) (cs : List LineChange) : Nat :=
  cs.countP fun c => c.isDelete && decide (c.line ≤ line)

/-- The number of insertions that come no later than a line, of those with the given
numbers, where `deleted x` deletions are counted before an insertion with number `x`
and `inserted` insertions before them all. -/
def counted (line : Int) (deleted : Int → Int) : Int → List Int → Int
  | inserted, [] => inserted
  | inserted, x :: xs =>
    if x + deleted x - inserted ≤ line then counted line deleted (inserted + 1) xs
    else counted line deleted inserted xs

/-- A change comes before another one: its number is smaller, or it is as great and
not an insertion that a deletion follows. -/
def Before (c d : LineChange) : Prop :=
  c.line ≤ d.line ∧ (c.isDelete = false → d.isDelete = true → c.line < d.line)

section Counted

variable {line : Int} {deleted : Int → Int}

theorem counted_congr {deleted' : Int → Int} : ∀ {inserted : Int} {xs : List Int},
    (∀ x ∈ xs, deleted x = deleted' x) →
      counted line deleted inserted xs = counted line deleted' inserted xs
  | _, [], _ => rfl
  | inserted, x :: xs, h => by
    have rest : ∀ y ∈ xs, deleted y = deleted' y := fun y hy => h y (List.mem_cons_of_mem _ hy)
    rw [counted, counted, h x List.mem_cons_self, counted_congr rest, counted_congr rest]

theorem le_counted : ∀ (inserted : Int) (xs : List Int),
    inserted ≤ counted line deleted inserted xs
  | _, [] => Int.le_refl _
  | inserted, x :: xs => by
    rw [counted]
    split
    · have := le_counted (inserted + 1) xs
      omega
    · exact le_counted inserted xs

theorem counted_le : ∀ (inserted : Int) (xs : List Int),
    counted line deleted inserted xs ≤ inserted + xs.length
  | _, [] => Int.le_add_of_nonneg_right (Int.natCast_nonneg _)
  | inserted, x :: xs => by
    have counts := counted_le (inserted + 1) xs
    have skips := counted_le inserted xs
    rw [counted, List.length_cons]
    split <;> omega

theorem counted_append (later : List Int) : ∀ {inserted : Int} {above : List Int},
    (∀ (k : Nat) (x : Int), above[k]? = some x → x + deleted x ≤ line + inserted + k) →
      counted line deleted inserted (above ++ later) =
        counted line deleted (inserted + above.length) later
  | inserted, [], _ => by
    rw [List.nil_append, List.length_nil, Int.natCast_zero, Int.add_zero]
  | inserted, x :: above, h => by
    have first := h 0 x rfl
    have rest : ∀ (k : Nat) (y : Int), above[k]? = some y →
        y + deleted y ≤ line + (inserted + 1) + k := by
      intro k y hy
      have := h (k + 1) y hy
      omega
    rw [List.cons_append, counted, if_pos (by omega), counted_append later rest, List.length_cons]
    exact congrArg (counted line deleted · later) (by omega)

theorem counted_eq_self : ∀ {inserted : Int} {xs : List Int},
    (∀ x ∈ xs, line + inserted < x + deleted x) → counted line deleted inserted xs = inserted
  | _, [], _ => rfl
  | inserted, x :: xs, h => by
    have first := h x List.mem_cons_self
    rw [counted, if_neg (by omega), counted_eq_self fun y hy => h y (List.mem_cons_of_mem _ hy)]

theorem lt_counted {inserted x : Int} (hx : x + deleted x ≤ line + inserted) :
    ∀ {inserted' : Int} {xs : List Int}, inserted ≤ inserted' → x ∈ xs →
      inserted < counted line deleted inserted' xs
  | inserted', y :: ys, le, mem => by
    rw [counted]
    split
    next here =>
      have more : inserted' + 1 ≤ counted line deleted (inserted' + 1) ys := le_counted _ _
      omega
    next late =>
      rcases List.mem_cons.mp mem with rfl | mem
      · omega
      · exact lt_counted hx le mem

end Counted

section UpTo

variable {c : LineChange} {cs : List LineChange}

theorem upTo_cons_of_delete (hc : c.isDelete = true) (line : Int) :
    upTo line (c :: cs) = upTo line cs + if c.line ≤ line then 1 else 0 := by
  unfold upTo
  rw [List.countP_cons, hc, Bool.true_and]
  simp only [decide_eq_true_eq]

theorem upTo_cons_of_insert (hc : c.isDelete = false) (line : Int) :
    upTo line (c :: cs) = upTo line cs := by
  unfold upTo
  rw [List.countP_cons, hc, Bool.false_and, if_neg Bool.false_ne_true, Nat.add_zero]

/-- Behind an insertion no deletion has its number or a smaller one. -/
theorem upTo_eq_zero (hc : c.isDelete = false) (first : ∀ d ∈ cs, Before c d) {line : Int}
    (le : line ≤ c.line) : upTo line cs = 0 := by
  apply List.countP_eq_zero.mpr
  intro d hd
  rw [Bool.and_eq_true, decide_eq_true_eq]
  rintro ⟨hdel, upTo⟩
  have lt := (first d hd).2 hc hdel
  omega

end UpTo

/-- What concerns a line, among changes in order. -/
theorem concerning_eq (line : Int) : ∀ {cs : List LineChange} (deleted inserted : Int),
    (∀ c ∈ cs, c.isInsert = !c.isDelete) → cs.Pairwise Before →
    concerning line deleted inserted cs =
      (deleted + upTo line cs,
        counted line (fun x => deleted + upTo (min x line) cs) inserted
          ((cs.filter LineChange.isInsert).map LineChange.line))
  | [], deleted, inserted, _, _ => by
    rw [concerning, upTo, List.countP_nil, Int.natCast_zero, Int.add_zero]
    rfl
  | c :: cs, deleted, inserted, kinds, ordered => by
    obtain ⟨first, ordered⟩ := List.pairwise_cons.mp ordered
    have kind := kinds c List.mem_cons_self
    have ih := fun deleted inserted => concerning_eq line deleted inserted
      (fun d hd => kinds d (List.mem_cons_of_mem _ hd)) ordered
    cases hc : c.isDelete with
    | true =>
      have skip : (c :: cs).filter LineChange.isInsert = cs.filter LineChange.isInsert :=
        List.filter_cons_of_neg (by simp [kind, hc])
      have count : ∀ t, upTo t (c :: cs) = _ := upTo_cons_of_delete hc
      rw [concerning, if_pos hc, skip, count line]
      by_cases le : c.line ≤ line
      · -- the insertions that follow all have its number or a greater one
        have behind : ∀ x ∈ (cs.filter LineChange.isInsert).map LineChange.line, c.line ≤ x := by
          intro x hx
          obtain ⟨d, hd, rfl⟩ := List.mem_map.mp hx
          exact (first d (List.mem_of_mem_filter hd)).1
        rw [if_pos le, if_pos le, ih]
        refine Prod.ext (by simp only; omega) (counted_congr fun x hx => ?_)
        have := behind x hx
        rw [count, if_pos (by omega)]
        omega
      · rw [if_neg le, if_neg le, ih]
        refine Prod.ext rfl (counted_congr fun x _ => ?_)
        rw [count, if_neg (by omega)]
        rfl
    | false =>
      have keep : (c :: cs).filter LineChange.isInsert = c :: cs.filter LineChange.isInsert :=
        List.filter_cons_of_pos (by simp [kind, hc])
      have count : ∀ t, upTo t (c :: cs) = _ := upTo_cons_of_insert hc
      have none : upTo (min c.line line) cs = 0 := upTo_eq_zero hc first (by omega)
      rw [concerning, if_neg (by simp [hc]), keep, List.map_cons, counted]
      simp only [count, none]
      rw [Int.natCast_zero, Int.add_zero]
      split
      · exact ih deleted (inserted + 1)
      · exact ih deleted inserted

/-! ### Sorting deletions and insertions together -/

/-- Deletions on one side and insertions on the other one, each sorted by their lines. -/
structure Sorted (layout : Layout) : Prop where
  deletes : ∀ c ∈ layout.deletions, c.isDelete = true ∧ c.isInsert = false
  inserts : ∀ c ∈ layout.insertions, c.isInsert = true ∧ c.isDelete = false
  deletions : layout.deletions.Pairwise fun c d => c.line ≤ d.line
  insertions : layout.insertions.Pairwise fun c d => c.line ≤ d.line

/-- Deletions on one side and insertions on the other one, each in the order of their
lines. -/
structure Ordered (layout : Layout) : Prop where
  deletes : ∀ c ∈ layout.deletions, c.isDelete = true ∧ c.isInsert = false
  inserts : ∀ c ∈ layout.insertions, c.isInsert = true ∧ c.isDelete = false
  deletions : layout.deletions.Pairwise fun c d => c.line < d.line
  insertions : layout.insertions.Pairwise fun c d => c.line < d.line

theorem Ordered.sorted {layout : Layout} (h : layout.Ordered) : layout.Sorted where
  deletes := h.deletes
  inserts := h.inserts
  deletions := h.deletions.imp Int.le_of_lt
  insertions := h.insertions.imp Int.le_of_lt

theorem line_le_trans (b c d : LineChange) (h : decide (b.line ≤ c.line) = true)
    (h' : decide (c.line ≤ d.line) = true) : decide (b.line ≤ d.line) = true :=
  decide_eq_true (Int.le_trans (of_decide_eq_true h) (of_decide_eq_true h'))

theorem line_le_total (c d : LineChange) :
    (decide (c.line ≤ d.line) || decide (d.line ≤ c.line)) = true := by
  rw [Bool.or_eq_true, decide_eq_true_eq, decide_eq_true_eq]
  exact Int.le_total _ _

theorem byLine_perm (cs : List LineChange) : (byLine cs).Perm cs :=
  List.mergeSort_perm _ _

theorem pairwise_le_byLine (cs : List LineChange) :
    (byLine cs).Pairwise fun c d => c.line ≤ d.line :=
  (List.pairwise_mergeSort line_le_trans line_le_total cs).imp of_decide_eq_true

/-- Sorting is stable: what is sorted already keeps its order. -/
theorem sublist_byLine {ds cs : List LineChange} (h : ds.Pairwise fun c d => c.line ≤ d.line)
    (sub : ds.Sublist cs) : ds.Sublist (byLine cs) :=
  List.sublist_mergeSort line_le_trans line_le_total (h.imp fun le => decide_eq_true le) sub

/-- What is chosen from changes is chosen in its order after sorting, if it is sorted. -/
theorem filter_byLine {p : LineChange → Bool} {cs : List LineChange}
    (h : (cs.filter p).Pairwise fun c d => c.line ≤ d.line) :
    (byLine cs).filter p = cs.filter p := by
  have sub := (sublist_byLine h List.filter_sublist).filter p
  have again : (cs.filter p).filter p = cs.filter p :=
    List.filter_eq_self.mpr fun c hc => (List.mem_filter.mp hc).2
  rw [again] at sub
  exact (sub.eq_of_length ((byLine_perm cs).filter p).length_eq.symm).symm

section Sorted

variable {layout : Layout}

/-- Sorted together, deletions come before insertions of the same number. -/
theorem Sorted.pairwise_byLine (h : layout.Sorted) :
    (byLine (layout.deletions ++ layout.insertions)).Pairwise Before := by
  let cs := layout.deletions ++ layout.insertions
  have apart : cs.Pairwise fun c d => c.isDelete = false → d.isDelete = false := by
    refine List.pairwise_append.mpr ⟨h.deletions.imp_of_mem fun hc _ _ kind => ?_,
      h.insertions.imp_of_mem fun _ hd _ _ => (h.inserts _ hd).2, fun c hc d hd _ =>
      (h.inserts d hd).2⟩
    rw [(h.deletes _ hc).1] at kind
    cases kind
  refine List.pairwise_iff_forall_sublist.mpr fun {c d} sub => ?_
  have le : c.line ≤ d.line :=
    List.pairwise_iff_forall_sublist.mp (pairwise_le_byLine cs) sub
  refine ⟨le, fun hc hd => Int.lt_iff_le_and_ne.mpr ⟨le, fun same => ?_⟩⟩
  -- changes of one number stand as they stood before
  let here : LineChange → Bool := fun b => b.line == c.line
  have level : (cs.filter here).Pairwise fun c d => c.line ≤ d.line := by
    refine List.pairwise_of_forall_mem_list fun b hb b' hb' => Int.le_of_eq ?_
    exact (eq_of_beq (List.mem_filter.mp hb).2).trans (eq_of_beq (List.mem_filter.mp hb').2).symm
  have both : [c, d].filter here = [c, d] :=
    List.filter_eq_self.mpr (by simp [here, same])
  have before := sub.filter here
  rw [both, filter_byLine level] at before
  have insert :=
    List.pairwise_iff_forall_sublist.mp apart (before.trans List.filter_sublist) hc
  rw [hd] at insert
  cases insert

theorem Sorted.upTo_byLine (h : layout.Sorted) (line : Int) :
    upTo line (byLine (layout.deletions ++ layout.insertions)) = upTo line layout.deletions := by
  have none : layout.insertions.countP (fun c => c.isDelete && decide (c.line ≤ line)) = 0 := by
    apply List.countP_eq_zero.mpr
    intro c hc
    rw [(h.inserts c hc).2]
    exact Bool.false_ne_true
  unfold upTo
  rw [(byLine_perm _).countP_eq, List.countP_append, none, Nat.add_zero]

theorem Sorted.filter_isInsert (h : layout.Sorted) :
    (byLine (layout.deletions ++ layout.insertions)).filter LineChange.isInsert =
      layout.insertions := by
  have keep : layout.insertions.filter LineChange.isInsert = layout.insertions :=
    List.filter_eq_self.mpr fun c hc => (h.inserts c hc).1
  have drop : layout.deletions.filter LineChange.isInsert = [] :=
    List.filter_eq_nil_iff.mpr fun c hc => by simp [(h.deletes c hc).2]
  have chosen : (layout.deletions ++ layout.insertions).filter LineChange.isInsert =
      layout.insertions := by
    rw [List.filter_append, drop, keep, List.nil_append]
  rw [filter_byLine (chosen.symm ▸ h.insertions), chosen]

/-- Where a sorted layout moves a line. -/
theorem Sorted.mapLine_eq (h : layout.Sorted) (line : Int) :
    layout.mapLine line =
      line - upTo line layout.deletions +
        counted line (fun x => upTo (min x line) layout.deletions) 0
          (layout.insertions.map LineChange.line) := by
  have kinds : ∀ c ∈ byLine (layout.deletions ++ layout.insertions),
      c.isInsert = !c.isDelete := by
    intro c hc
    rcases List.mem_append.mp ((byLine_perm _).mem_iff.mp hc) with hm | hm
    · rw [(h.deletes c hm).1, (h.deletes c hm).2]
      rfl
    · rw [(h.inserts c hm).1, (h.inserts c hm).2]
      rfl
  unfold mapLine
  rw [concerning_eq line 0 0 kinds h.pairwise_byLine, h.filter_isInsert]
  simp only [h.upTo_byLine, Int.zero_add]

theorem Ordered.mapLine_eq (h : layout.Ordered) (line : Int) :
    layout.mapLine line =
      line - upTo line layout.deletions +
        counted line (fun x => upTo (min x line) layout.deletions) 0
          (layout.insertions.map LineChange.line) :=
  h.sorted.mapLine_eq line

end Sorted

end Layout
end Lineage
