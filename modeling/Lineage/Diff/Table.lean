/-
# Finding blocks

The alignment of two lists is found from a table of the places at which their
items meet. The table is swept from the end of the old list: the blocks that
start at one item follow from those that start at the next one, and an item that
the other list does not have costs nothing. What lies before a block and what
lies behind it have tables that are parts of the table.

Key definitions: `Block.Table`, `Block.Table.longest`, `Block.find`.
Key theorems: `Block.Table.longest_ofLists`, `Block.find_eq_align`.
-/
import Lineage.Diff.Blocks

namespace Lineage.Block

variable {α : Type} [BEq α]

/-- The places of an item in a list whose first item has index `j`, in order. -/
def placesOf (a : α) : (j : Nat) → List α → List Nat
  | _, [] => []
  | j, b :: new => if a == b then j :: placesOf a (j + 1) new else placesOf a (j + 1) new

/-- For each item of the old list its places in the new one. -/
abbrev Table := List (List Nat)

namespace Table

/-- The table of two lists. -/
def ofLists (old new : List α) : Table :=
  old.map fun a => placesOf a 0 new

/-- The table of the old items before index `i` and the new ones before index `j`. -/
def before (i j : Nat) (t : Table) : Table :=
  (t.take i).map fun row => row.filter (· < j)

/-- The table of the old items from index `i` and the new ones from index `j` on. -/
def behind (i j : Nat) (t : Table) : Table :=
  (t.drop i).map fun row => (row.filter (j ≤ ·)).map (· - j)

/-- The starts in the new list, with the sizes, of the blocks that start at an
item with given places, from those of the blocks that start at the next item. -/
def extend : List Nat → List (Nat × Nat) → List (Nat × Nat)
  | [], _ => []
  | j :: js, next =>
    let next := next.dropWhile (·.1 ≤ j)
    let size :=
      match next with
      | (k, size) :: _ => if k = j + 1 then size + 1 else 1
      | [] => 1
    (j, size) :: extend js next

/-- The better of `best` and the blocks that start at index `i` of the old list
and have the given starts in the new list and sizes. -/
def bestOf (i : Nat) : List (Nat × Nat) → Block → Block
  | [], best => best
  | (j, size) :: blocks, best => bestOf i blocks (longer best ⟨i, j, size⟩)

/-- The blocks that start at the first item of the old list, which has index `i`,
and the longest of all blocks. -/
def sweep (i : Nat) : Table → List (Nat × Nat) × Block
  | [] => ([], ⟨0, 0, 0⟩)
  | row :: t =>
    let (next, later) := sweep (i + 1) t
    let blocks := extend row next
    (blocks, longer (bestOf i blocks ⟨0, 0, 0⟩) later)

/-- The longest block of a table. -/
def longest (t : Table) : Block :=
  (sweep 0 t).2

/-- The blocks that align two lists with a table, within a number of nested searches. -/
def align : Nat → Table → List Block
  | 0, _ => []
  | n + 1, t =>
    let b := t.longest
    if b.size = 0 then []
    else
      align n (t.before b.old b.new) ++ b ::
        (align n (t.behind (b.old + b.size) (b.new + b.size))).map
          (shift (b.old + b.size) (b.new + b.size))

end Table

/-- The blocks that align two lists, in order. -/
def find (old new : List α) : List Block :=
  (Table.ofLists old new).align old.length

/-! ### Parts of a table -/

theorem le_of_mem_placesOf (a : α) {k : Nat} :
    ∀ (new : List α) (j : Nat), k ∈ placesOf a j new → j ≤ k
  | [], _, h => by simp [placesOf] at h
  | b :: new, j, h => by
    have later := le_of_mem_placesOf a (k := k) new (j + 1)
    simp only [placesOf] at h
    split at h
    · rcases List.mem_cons.mp h with rfl | h
      · exact Nat.le_refl _
      · have := later h
        omega
    · have := later h
      omega

theorem placesOf_take (a : α) :
    ∀ (new : List α) (j m : Nat),
      placesOf a j (new.take m) = (placesOf a j new).filter (· < j + m)
  | [], _, _ => by simp [placesOf]
  | b :: new, j, 0 => by
    have none : (placesOf a j (b :: new)).filter (· < j + 0) = [] := by
      simp only [List.filter_eq_nil_iff, decide_eq_true_eq]
      intro k hk
      have := le_of_mem_placesOf a _ _ hk
      omega
    rw [none, List.take_zero, placesOf]
  | b :: new, j, m + 1 => by
    have rest := placesOf_take a new (j + 1) m
    rw [show j + 1 + m = j + (m + 1) by omega] at rest
    simp only [List.take_succ_cons, placesOf, rest]
    split
    · rw [List.filter_cons_of_pos (by simp)]
    · rfl

theorem placesOf_succ (a : α) :
    ∀ (new : List α) (j : Nat), placesOf a (j + 1) new = (placesOf a j new).map (· + 1)
  | [], _ => rfl
  | b :: new, j => by
    simp only [placesOf, placesOf_succ a new (j + 1)]
    split <;> simp

theorem placesOf_drop (a : α) :
    ∀ (new : List α) (m : Nat),
      placesOf a 0 (new.drop m) = ((placesOf a 0 new).filter (m ≤ ·)).map (· - m)
  | [], _ => by simp [placesOf]
  | b :: new, 0 => by
    simp only [List.drop_zero, Nat.zero_le, decide_true, Nat.sub_zero, List.map_id']
    rw [List.filter_eq_self.mpr (by simp)]
  | b :: new, m + 1 => by
    have front : (placesOf a 0 (b :: new)).filter (m + 1 ≤ ·) =
        (placesOf a 1 new).filter (m + 1 ≤ ·) := by
      simp only [placesOf]
      split
      · rw [List.filter_cons_of_neg (by simp)]
      · rfl
    rw [List.drop_succ_cons, placesOf_drop a new m, front, placesOf_succ, List.filter_map,
      List.map_map]
    simp [Function.comp_def]

namespace Table

theorem before_ofLists (old new : List α) (i j : Nat) :
    (ofLists old new).before i j = ofLists (old.take i) (new.take j) := by
  simp [before, ofLists, placesOf_take, List.map_take, Function.comp_def]

theorem behind_ofLists (old new : List α) (i j : Nat) :
    (ofLists old new).behind i j = ofLists (old.drop i) (new.drop j) := by
  simp [behind, ofLists, placesOf_drop, List.map_drop, Function.comp_def]

/-! ### The longest block of a table -/

/-- The starts and sizes of the blocks that start at the first item of the old
list, where the first item of the new list has index `j`. -/
def starts (old : List α) : (j : Nat) → List α → List (Nat × Nat)
  | _, [] => []
  | j, b :: new =>
    let size := commonStart old (b :: new)
    if size = 0 then starts old (j + 1) new else (j, size) :: starts old (j + 1) new

theorem le_of_mem_starts (old : List α) {p : Nat × Nat} :
    ∀ (new : List α) (j : Nat), p ∈ starts old j new → j ≤ p.1
  | [], _, h => by simp [starts] at h
  | b :: new, j, h => by
    have later := le_of_mem_starts old (p := p) new (j + 1)
    simp only [starts] at h
    split at h
    · have := later h
      omega
    · rcases List.mem_cons.mp h with rfl | h
      · exact Nat.le_refl _
      · have := later h
        omega

theorem starts_nil : ∀ (new : List α) (j : Nat), starts [] j new = []
  | [], _ => rfl
  | b :: new, j => by simp [starts, commonStart, starts_nil new]

/-- Nothing is dropped up to a place before all starts. -/
theorem dropWhile_starts (old new : List α) (j : Nat) :
    (starts old (j + 1) new).dropWhile (·.1 ≤ j) = starts old (j + 1) new := by
  cases h : starts old (j + 1) new with
  | nil => rfl
  | cons p rest =>
    have := le_of_mem_starts old (p := p) new (j + 1) (by simp [h])
    rw [List.dropWhile_cons_of_neg (by simp only [decide_eq_true_eq]; omega)]

/-- A start before all places makes no difference. -/
theorem extend_cons (p : Nat × Nat) (next : List (Nat × Nat)) :
    ∀ js : List Nat, (∀ j ∈ js, p.1 ≤ j) → extend js (p :: next) = extend js next
  | [], _ => rfl
  | j :: js, h => by
    have := h j (by simp)
    simp only [extend]
    rw [List.dropWhile_cons_of_pos (by simpa using this)]

/-- The size that a block has if it starts one item earlier. -/
theorem size_starts (old new : List α) (j : Nat) :
    (match starts old (j + 1) new with
      | (k, size) :: _ => if k = j + 1 then size + 1 else 1
      | [] => 1) = commonStart old new + 1 := by
  cases new with
  | nil => cases old <;> rfl
  | cons b new =>
    simp only [starts]
    by_cases h : commonStart old (b :: new) = 0
    · simp only [h, if_true]
      cases hs : starts old (j + 1 + 1) new with
      | nil => rfl
      | cons p rest =>
        have := le_of_mem_starts old (p := p) new (j + 1 + 1) (by simp [hs])
        exact if_neg (by omega)
    · simp [h]

theorem extend_starts (a : α) (old : List α) :
    ∀ (new : List α) (j : Nat),
      extend (placesOf a j new) (starts old j new) = starts (a :: old) j new
  | [], _ => rfl
  | b :: new, j => by
    have rest := extend_starts a old new (j + 1)
    have skip : ∀ js : List Nat, (∀ k ∈ js, j ≤ k) →
        extend js (starts old j (b :: new)) = extend js (starts old (j + 1) new) := by
      intro js hjs
      simp only [starts]
      split
      · rfl
      · exact extend_cons _ _ js hjs
    by_cases h : a == b
    · simp only [placesOf, h, if_true]
      rw [skip _ (by
        intro k hk
        rcases List.mem_cons.mp hk with rfl | hk
        · exact Nat.le_refl _
        · have := le_of_mem_placesOf a _ _ hk
          omega)]
      simp only [extend, dropWhile_starts, size_starts, rest]
      simp [starts, commonStart, h]
    · simp only [placesOf, h, Bool.false_eq_true, if_false]
      rw [skip _ (by
        intro k hk
        have := le_of_mem_placesOf a _ _ hk
        omega), rest]
      simp [starts, commonStart, h]

theorem bestOf_starts (old : List α) (i : Nat) :
    ∀ (new : List α) (j : Nat) (best : Block),
      bestOf i (starts old j new) best = bestInRow old i j new best
  | [], _, _ => rfl
  | b :: new, j, best => by
    simp only [starts, bestInRow]
    split
    · rename_i h
      rw [bestOf_starts old i new, h, if_neg (by omega)]
    · exact bestOf_starts old i new (j + 1) _

theorem sweep_ofLists (new : List α) :
    ∀ (old : List α) (i : Nat),
      sweep i (ofLists old new) = (starts old 0 new, bestFrom new i old ⟨0, 0, 0⟩)
  | [], _ => by simp [ofLists, sweep, starts_nil, bestFrom]
  | a :: old, i => by
    have rest := sweep_ofLists new old (i + 1)
    simp only [ofLists] at rest
    simp only [ofLists, List.map_cons, sweep, rest, extend_starts, bestOf_starts, bestFrom]
    rw [bestFrom_eq_longer new old (i + 1) (bestInRow (a :: old) i 0 new ⟨0, 0, 0⟩)]

/-- The longest block of the table of two lists is the longest block of the lists. -/
theorem longest_ofLists (old new : List α) :
    (ofLists old new).longest = Block.longest old new := by
  rw [longest, sweep_ofLists, Block.longest]

/-! ### Alignment -/

theorem align_ofLists :
    ∀ (n : Nat) (old new : List α), old.length ≤ n →
      (ofLists old new).align n = Block.align old new
  | 0, old, new, h => by
    rw [List.eq_nil_of_length_eq_zero (Nat.le_zero.mp h), Block.align]
    rfl
  | n + 1, old, new, h => by
    have fits := longest_fits old new
    rw [Block.align]
    simp only [align, longest_ofLists, before_ofLists, behind_ofLists]
    by_cases hsize : (Block.longest old new).size = 0
    · simp [hsize]
    · simp only [hsize, if_false, dite_false]
      rw [align_ofLists n, align_ofLists n]
      all_goals
        simp only [Fits] at fits
        simp only [List.length_take, List.length_drop]
        omega

end Table

/-- What is found is the alignment. -/
theorem find_eq_align (old new : List α) : find old new = align old new :=
  Table.align_ofLists old.length old new (Nat.le_refl _)

end Lineage.Block
