/-
# Matching blocks

Two lists are aligned by their longest common block, then by the longest common
blocks of what lies before it and of what lies behind it, and so on. Among
blocks of one length the one that starts first in the old list counts, and among
those the one that starts first in the new list.

Key definitions: `Block`, `Block.longest`, `Block.align`.
Key theorems: `Block.longest_fits`, `Block.bestFrom_eq_longer`.
-/
namespace Lineage

/-- A stretch that two lists have in common: where it starts in each, and its size. -/
structure Block where
  old : Nat
  new : Nat
  size : Nat
  deriving DecidableEq, Repr

namespace Block

variable {α : Type} [BEq α]

/-- The number of items that two lists have in common at their start. -/
def commonStart : List α → List α → Nat
  | a :: as, b :: bs => if a == b then commonStart as bs + 1 else 0
  | _, _ => 0

/-- The better of `best` and the blocks that start at index `i` of the old list,
whose items from there on are `old`, and at index `j` or later of the new list. -/
def bestInRow (old : List α) (i : Nat) : Nat → List α → Block → Block
  | _, [], best => best
  | j, b :: new, best =>
    let size := commonStart old (b :: new)
    bestInRow old i (j + 1) new (if best.size < size then ⟨i, j, size⟩ else best)

/-- The better of `best` and the blocks that start at index `i` or later of the old list. -/
def bestFrom (new : List α) : Nat → List α → Block → Block
  | _, [], best => best
  | i, a :: old, best => bestFrom new (i + 1) old (bestInRow (a :: old) i 0 new best)

/-- The longest block of two lists; its size is zero if they have no item in common. -/
def longest (old new : List α) : Block :=
  bestFrom new 0 old ⟨0, 0, 0⟩

/-- A block that lies inside two lists of the given lengths. -/
def Fits (b : Block) (old new : Nat) : Prop :=
  b.old + b.size ≤ old ∧ b.new + b.size ≤ new

theorem commonStart_le : ∀ as bs : List α,
    commonStart as bs ≤ as.length ∧ commonStart as bs ≤ bs.length
  | [], _ => by simp [commonStart]
  | _ :: _, [] => by simp [commonStart]
  | a :: as, b :: bs => by
    have := commonStart_le as bs
    simp only [commonStart, List.length_cons]
    split <;> omega

theorem bestInRow_fits {old : List α} {i oldLength newLength : Nat}
    (hi : i + old.length ≤ oldLength) :
    ∀ (new : List α) (j : Nat) (best : Block), best.Fits oldLength newLength →
      j + new.length ≤ newLength → (bestInRow old i j new best).Fits oldLength newLength
  | [], _, _, h, _ => h
  | b :: new, j, best, h, hj => by
    have hc := commonStart_le old (b :: new)
    simp only [List.length_cons] at hj hc
    refine bestInRow_fits hi new (j + 1) _ ?_ (by omega)
    split
    · constructor <;> simp only <;> omega
    · exact h

theorem bestFrom_fits {new : List α} {oldLength : Nat} :
    ∀ (old : List α) (i : Nat) (best : Block), best.Fits oldLength new.length →
      i + old.length ≤ oldLength → (bestFrom new i old best).Fits oldLength new.length
  | [], _, _, h, _ => h
  | a :: old, i, best, h, hi => by
    simp only [List.length_cons] at hi
    exact bestFrom_fits old (i + 1) _
      (bestInRow_fits (by simp only [List.length_cons]; omega) new 0 best h (by omega)) (by omega)

/-- The longest block lies inside the two lists. -/
theorem longest_fits (old new : List α) : (longest old new).Fits old.length new.length :=
  bestFrom_fits old 0 _ ⟨by simp, by simp⟩ (by omega)

/-! ### Comparing blocks -/

/-- The longer of two blocks, the first if they are as long. -/
def longer (b c : Block) : Block :=
  if b.size < c.size then c else b

theorem longer_zero (b : Block) : longer b ⟨0, 0, 0⟩ = b := by
  simp [longer]

theorem longer_assoc (b c d : Block) : longer (longer b c) d = longer b (longer c d) := by
  grind [longer]

/-- The best block of a row is the longer one of `best` and the row's own. -/
theorem bestInRow_eq_longer (old : List α) (i : Nat) :
    ∀ (new : List α) (j : Nat) (best : Block),
      bestInRow old i j new best = longer best (bestInRow old i j new ⟨0, 0, 0⟩)
  | [], _, best => (longer_zero best).symm
  | b :: new, j, best => by
    let here : Block := ⟨i, j, commonStart old (b :: new)⟩
    show bestInRow old i (j + 1) new (longer best here) =
      longer best (bestInRow old i (j + 1) new (longer ⟨0, 0, 0⟩ here))
    rw [bestInRow_eq_longer old i new (j + 1),
      bestInRow_eq_longer old i new (j + 1) (longer ⟨0, 0, 0⟩ here), longer_assoc, longer_assoc,
      ← longer_assoc best ⟨0, 0, 0⟩, longer_zero]

/-- The best block is the longer one of `best` and the lists' own. -/
theorem bestFrom_eq_longer (new : List α) :
    ∀ (old : List α) (i : Nat) (best : Block),
      bestFrom new i old best = longer best (bestFrom new i old ⟨0, 0, 0⟩)
  | [], _, best => (longer_zero best).symm
  | a :: old, i, best => by
    rw [bestFrom, bestFrom, bestFrom_eq_longer new old (i + 1),
      bestFrom_eq_longer new old (i + 1) (bestInRow (a :: old) i 0 new ⟨0, 0, 0⟩),
      bestInRow_eq_longer (a :: old) i new 0 best, longer_assoc]

/-! ### Alignment -/

/-- A block moved further on in both lists. -/
def shift (old new : Nat) (b : Block) : Block :=
  ⟨b.old + old, b.new + new, b.size⟩

/-- The blocks that align two lists, in order. -/
def align (old new : List α) : List Block :=
  let b := longest old new
  if _h : b.size = 0 then []
  else
    align (old.take b.old) (new.take b.new) ++ b ::
      (align (old.drop (b.old + b.size)) (new.drop (b.new + b.size))).map
        (shift (b.old + b.size) (b.new + b.size))
termination_by old.length
decreasing_by
  all_goals
    have some : ¬(longest old new).size = 0 := _h
    have fits := longest_fits old new
    simp only [Fits] at fits
    simp only [List.length_take, List.length_drop]
    omega

end Block
end Lineage
