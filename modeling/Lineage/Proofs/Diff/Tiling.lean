/-
# Hunks and what lies between them

The blocks that align two lists of lines are stretches that the lists have in
common, one behind the other. So the hunks between two lists come in order, what
lies between them is alike on both sides, and no hunk begins where the one before
it ends (`Hunk.tiles_between`).

Key definitions: `Block.Common`, `Block.Chain`, `Hunk.Tiles`.
Key theorems: `Block.common_longest`, `Block.chain_align`, `Hunk.tiles_between`.
-/
import Lineage.Diff.Hunk

namespace Lineage

/-! ### Blocks -/

namespace Block

variable {α : Type}

/-- The stretch is the same in both lists. -/
def Common (b : Block) (old new : List α) : Prop :=
  ∀ k, k < b.size → ∃ x, old[b.old + k]? = some x ∧ new[b.new + k]? = some x

/-- Common stretches in order, from a place in each list up to another one. -/
def Chain (old new : List α) (i' j' : Nat) : Nat → Nat → List Block → Prop
  | i, j, [] => i ≤ i' ∧ j ≤ j'
  | i, j, b :: bs => i ≤ b.old ∧ j ≤ b.new ∧ 0 < b.size ∧ b.Common old new ∧
      Chain old new i' j' (b.old + b.size) (b.new + b.size) bs

section Longest

variable [BEq α] [LawfulBEq α]

theorem commonStart_spec : ∀ (as bs : List α) (k : Nat), k < commonStart as bs →
    ∃ x, as[k]? = some x ∧ bs[k]? = some x
  | [], _, k, h => by simp [commonStart] at h
  | _ :: _, [], k, h => by simp [commonStart] at h
  | a :: as, b :: bs, k, h => by
    rw [commonStart] at h
    split at h
    next same =>
      cases k with
      | zero => exact ⟨a, rfl, by rw [eq_of_beq same]; rfl⟩
      | succ k => exact commonStart_spec as bs k (by omega)
    next => omega

theorem bestInRow_common {old new rest : List α} {i : Nat} (hi : old.drop i = rest) :
    ∀ (row : List α) (j : Nat) (best : Block), new.drop j = row → best.Common old new →
      (bestInRow rest i j row best).Common old new
  | [], _, _, _, h => h
  | b :: row, j, best, hj, h => by
    refine bestInRow_common hi row (j + 1) _ ?_ ?_
    · rw [← List.drop_drop, hj]
      rfl
    · split
      · intro k hk
        obtain ⟨x, hx, hy⟩ := commonStart_spec rest (b :: row) k hk
        rw [← hi, List.getElem?_drop] at hx
        rw [← hj, List.getElem?_drop] at hy
        exact ⟨x, hx, hy⟩
      · exact h

theorem bestFrom_common {old new : List α} :
    ∀ (rest : List α) (i : Nat) (best : Block), old.drop i = rest → best.Common old new →
      (bestFrom new i rest best).Common old new
  | [], _, _, _, h => h
  | a :: rest, i, best, hi, h => by
    refine bestFrom_common rest (i + 1) _ ?_ (bestInRow_common hi new 0 best rfl h)
    rw [← List.drop_drop, hi]
    rfl

/-- The longest block is a common stretch. -/
theorem common_longest (old new : List α) : (longest old new).Common old new :=
  bestFrom_common old 0 _ rfl fun _ hk => absurd hk (Nat.not_lt_zero _)

end Longest

theorem Common.of_take {b : Block} {old new : List α} {i j : Nat}
    (h : b.Common (old.take i) (new.take j)) : b.Common old new := by
  intro k hk
  obtain ⟨x, hx, hy⟩ := h k hk
  rw [List.getElem?_take] at hx hy
  split at hx <;> split at hy <;> first | exact ⟨x, hx, hy⟩ | cases hx | cases hy

theorem Common.of_drop {b : Block} {old new : List α} {i j : Nat}
    (h : b.Common (old.drop i) (new.drop j)) : (b.shift i j).Common old new := by
  intro k hk
  obtain ⟨x, hx, hy⟩ := h k hk
  rw [List.getElem?_drop] at hx hy
  refine ⟨x, ?_, ?_⟩
  · rw [← hx]
    exact congrArg (old[·]?) (show b.old + i + k = i + (b.old + k) by omega)
  · rw [← hy]
    exact congrArg (new[·]?) (show b.new + j + k = j + (b.new + k) by omega)

namespace Chain

variable {old new : List α}

theorem start {i₀ j₀ i j i' j' : Nat} {bs : List Block} (h : Chain old new i' j' i j bs)
    (hi : i₀ ≤ i) (hj : j₀ ≤ j) : Chain old new i' j' i₀ j₀ bs := by
  cases bs with
  | nil => exact ⟨Nat.le_trans hi h.1, Nat.le_trans hj h.2⟩
  | cons b bs => exact ⟨Nat.le_trans hi h.1, Nat.le_trans hj h.2.1, h.2.2⟩

theorem append {i' j' i'' j'' : Nat} {cs : List Block} (hc : Chain old new i'' j'' i' j' cs) :
    ∀ {i j : Nat} {bs : List Block}, Chain old new i' j' i j bs →
      Chain old new i'' j'' i j (bs ++ cs)
  | _, _, [], h => hc.start h.1 h.2
  | _, _, _ :: _, ⟨hi, hj, pos, common, h⟩ => ⟨hi, hj, pos, common, append hc h⟩

theorem of_take {i' j' m n : Nat} :
    ∀ {i j : Nat} {bs : List Block}, Chain (old.take m) (new.take n) i' j' i j bs →
      Chain old new i' j' i j bs
  | _, _, [], h => h
  | _, _, _ :: _, ⟨hi, hj, pos, common, h⟩ => ⟨hi, hj, pos, common.of_take, of_take h⟩

theorem of_drop {i' j' m n : Nat} :
    ∀ {i j : Nat} {bs : List Block}, Chain (old.drop m) (new.drop n) i' j' i j bs →
      Chain old new (i' + m) (j' + n) (i + m) (j + n) (bs.map (shift m n))
  | _, _, [], h => ⟨Nat.add_le_add_right h.1 m, Nat.add_le_add_right h.2 n⟩
  | _, _, b :: _, ⟨hi, hj, pos, common, h⟩ => by
    refine ⟨Nat.add_le_add_right hi m, Nat.add_le_add_right hj n, pos, common.of_drop, ?_⟩
    have rest := of_drop h
    rwa [Nat.add_right_comm, Nat.add_right_comm b.new] at rest

end Chain

/-- The blocks that align two lists are common stretches in order. -/
theorem chain_align [BEq α] [LawfulBEq α] (old new : List α) :
    Chain old new old.length new.length 0 0 (align old new) := by
  fun_induction align old new with
  | case1 => exact ⟨Nat.zero_le _, Nat.zero_le _⟩
  | case2 old new b some before behind =>
    have fits : b.Fits old.length new.length := longest_fits old new
    obtain ⟨fitsOld, fitsNew⟩ := fits
    rw [List.length_take, List.length_take, Nat.min_eq_left (by omega),
      Nat.min_eq_left (by omega)] at before
    rw [List.length_drop, List.length_drop] at behind
    have rest := behind.of_drop
    rw [Nat.sub_add_cancel fitsOld, Nat.sub_add_cancel fitsNew, Nat.zero_add, Nat.zero_add] at rest
    have here : Chain old new old.length new.length b.old b.new (b :: _) :=
      ⟨Nat.le_refl _, Nat.le_refl _, Nat.pos_of_ne_zero some, common_longest old new, rest⟩
    exact here.append before.of_take

end Block

/-! ### Hunks -/

namespace Hunk

/-- The number of old lines of a hunk. -/
def oldSize (h : Hunk) : Nat :=
  h.oldStop - h.oldStart

/-- The number of new lines of a hunk. -/
def newSize (h : Hunk) : Nat :=
  h.newStop - h.newStart

section Tiles

variable {α : Type}

/-- The hunk is the next one behind `i` old and `j` new lines: up to it both sides
are alike. -/
structure Follows (old new : List α) (i j : Nat) (h : Hunk) : Prop where
  oldFrom : i ≤ h.oldStart
  oldStop : h.oldStart ≤ h.oldStop
  oldEnd : h.oldStop ≤ old.length
  newStop : h.newStart ≤ h.newStop
  newEnd : h.newStop ≤ new.length
  level : h.newStart + i = h.oldStart + j
  alike : ∀ k, i + k < h.oldStart → old[i + k]? = new[j + k]?

/-- The hunks behind `i` old and `j` new lines are those of the two lists. -/
inductive Tiles (old new : List α) : Nat → Nat → List Hunk → Prop
  | nil {i j : Nat} (oldEnd : i ≤ old.length) (newEnd : j ≤ new.length)
      (level : new.length + i = old.length + j) (alike : ∀ k, old[i + k]? = new[j + k]?) :
      Tiles old new i j []
  | cons {i j : Nat} {h : Hunk} {hs : List Hunk} (next : h.Follows old new i j)
      (apart : ∀ h' ∈ hs, h.oldStop < h'.oldStart) (rest : Tiles old new h.oldStop h.newStop hs) :
      Tiles old new i j (h :: hs)

variable {old new : List α} {i j : Nat}

theorem Tiles.start_le {hs : List Hunk} (h : Tiles old new i j hs) :
    ∀ h' ∈ hs, i ≤ h'.oldStart ∧ j ≤ h'.newStart := by
  induction h with
  | nil => simp
  | @cons i j h hs next apart rest ih =>
    have level := next.level
    have oldFrom := next.oldFrom
    have oldStop := next.oldStop
    have newStop := next.newStop
    intro h' hh'
    rcases List.mem_cons.mp hh' with rfl | hh'
    · omega
    · have := ih h' hh'
      omega

theorem Tiles.apart {h : Hunk} {hs : List Hunk} (tiles : Tiles old new i j (h :: hs)) :
    ∀ h' ∈ hs, h.oldStop < h'.oldStart ∧ h.newStop < h'.newStart := by
  cases tiles with
  | cons next apart rest =>
    intro h' hh'
    refine ⟨apart h' hh', ?_⟩
    cases rest with
    | nil => cases hh'
    | @cons _ _ h₁ _ next₁ apart₁ rest₁ =>
      have first := apart h₁ List.mem_cons_self
      have level := next₁.level
      have newStop := next₁.newStop
      rcases List.mem_cons.mp hh' with rfl | hh'
      · omega
      · have := (rest₁.start_le h' hh').2
        omega

theorem Tiles.pairwise {hs : List Hunk} (h : Tiles old new i j hs) :
    hs.Pairwise fun h h' => h.oldStop < h'.oldStart ∧ h.newStop < h'.newStart := by
  induction h with
  | nil => exact .nil
  | cons next apart rest ih => exact .cons (Tiles.cons next apart rest).apart ih

theorem Tiles.valid {hs : List Hunk} (h : Tiles old new i j hs) : ∀ h' ∈ hs,
    (h'.oldStart ≤ h'.oldStop ∧ h'.oldStop ≤ old.length) ∧
      h'.newStart ≤ h'.newStop ∧ h'.newStop ≤ new.length := by
  induction h with
  | nil => simp
  | cons next apart rest ih =>
    intro h' hh'
    rcases List.mem_cons.mp hh' with rfl | hh'
    · exact ⟨⟨next.oldStop, next.oldEnd⟩, next.newStop, next.newEnd⟩
    · exact ih h' hh'

/-- A common stretch right before the place may be counted in. -/
theorem Tiles.back {hs : List Hunk} {e : Nat} (h : Tiles old new (i + e) (j + e) hs)
    (alike : ∀ k, k < e → old[i + k]? = new[j + k]?) : Tiles old new i j hs := by
  have onward : ∀ k, e ≤ k → old[i + e + (k - e)]? = new[j + e + (k - e)]? →
      old[i + k]? = new[j + k]? := by
    intro k hk same
    rwa [show i + e + (k - e) = i + k by omega, show j + e + (k - e) = j + k by omega] at same
  cases h with
  | nil oldEnd newEnd level same =>
    refine .nil (by omega) (by omega) (by omega) fun k => ?_
    by_cases hk : k < e
    · exact alike k hk
    · exact onward k (by omega) (same (k - e))
  | cons next apart rest =>
    have oldFrom := next.oldFrom
    have level := next.level
    refine .cons { next with oldFrom := by omega, level := by omega, alike := fun k lt => ?_ }
      apart rest
    by_cases hk : k < e
    · exact alike k hk
    · exact onward k (by omega) (next.alike (k - e) (by omega))

/-- The gaps that common stretches in order leave. -/
theorem tiles_gaps : ∀ {i j : Nat} {bs : List Block},
    Block.Chain old new old.length new.length i j bs →
      Tiles old new i j (gaps old.length new.length i j bs)
  | i, j, [], ⟨hi, hj⟩ => by
    have last : Tiles old new old.length new.length [] :=
      .nil (Nat.le_refl _) (Nat.le_refl _) (Nat.add_comm _ _) fun k => by
        rw [List.getElem?_eq_none (Nat.le_add_right _ _),
          List.getElem?_eq_none (Nat.le_add_right _ _)]
    rw [gaps, gap]
    split
    · exact .cons ⟨Nat.le_refl _, hi, Nat.le_refl _, hj, Nat.le_refl _, Nat.add_comm _ _,
        fun k lt => absurd lt (by simp)⟩ (by simp) last
    · obtain rfl : i = old.length := by omega
      obtain rfl : j = new.length := by omega
      exact last
  | i, j, b :: bs, ⟨hi, hj, pos, common, h⟩ => by
    have rest := tiles_gaps h
    have back : Tiles old new b.old b.new _ := rest.back fun k hk => by
      obtain ⟨x, hx, hy⟩ := common k hk
      rw [hx, hy]
    rw [gaps, gap]
    split
    · have oldEnd : b.old ≤ old.length := by
        obtain ⟨x, hx, -⟩ := common 0 pos
        exact Nat.le_of_lt (List.getElem?_eq_some_iff.mp hx).1
      have newEnd : b.new ≤ new.length := by
        obtain ⟨x, -, hx⟩ := common 0 pos
        exact Nat.le_of_lt (List.getElem?_eq_some_iff.mp hx).1
      refine .cons ⟨Nat.le_refl _, hi, oldEnd, hj, newEnd, Nat.add_comm _ _,
        fun k lt => absurd lt (by simp)⟩ (fun h' hh' => ?_) back
      have := (rest.start_le h' hh').1
      show b.old < h'.oldStart
      omega
    · obtain rfl : i = b.old := by omega
      obtain rfl : j = b.new := by omega
      exact back

end Tiles

/-- The hunks between two lists of lines. -/
theorem tiles_between (old new : List (List Char)) :
    Tiles old new 0 0 (between old new) := by
  unfold between
  rw [Block.find_eq_align]
  exact tiles_gaps (Block.chain_align old new)

end Hunk
end Lineage
