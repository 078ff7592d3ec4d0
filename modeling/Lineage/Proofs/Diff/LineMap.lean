/-
# The lines that a diff maps

A line in no hunk stays: the one that is counted k-th among such lines of the old
text is the k-th one of the new text, and it is the same line. A hunk replaces its
lines one by one, as far as both of its sides reach; the old lines beyond are
dropped, and the new lines beyond are brought. Following the hunks from the start
gives the same map (`Hunk.leads_iff`).

Key definitions: `Hunk.outside`, `Hunk.Keeps`, `Hunk.Replaces`, `Hunk.Drops`, `Hunk.Leads`.
Key theorems: `Hunk.leads_iff`, `Hunk.leads_or_drops`, `Hunk.Leads.not_drops`.
-/
import Lineage.Proofs.Diff.Tiling

namespace Lineage.Hunk

/-- The lines of the old text that a hunk takes away: those behind the first number
up to the second one. -/
def old (h : Hunk) : Nat × Nat :=
  (h.oldStart, h.oldStop)

/-- The lines of the new text that a hunk puts in. -/
def new (h : Hunk) : Nat × Nat :=
  (h.newStart, h.newStop)

/-- Whether a line is not in any of the stretches. -/
def isOutside (stretches : List (Nat × Nat)) (line : Nat) : Bool :=
  stretches.all fun s => decide (line ≤ s.1 ∨ s.2 < line)

/-- The lines behind line `i` of a text of `n` lines that are in no stretch. -/
def outside (stretches : List (Nat × Nat)) (i n : Nat) : List Nat :=
  (List.range' (i + 1) (n - i)).filter (isOutside stretches)

/-- Behind `i` of the `m` old and `j` of the `n` new lines, one line in no hunk is
counted like another one. -/
def Keeps (hs : List Hunk) (i m j n L M : Nat) : Prop :=
  ∃ k : Nat, (outside (hs.map old) i m)[k]? = some L ∧ (outside (hs.map new) j n)[k]? = some M

/-- A hunk replaces an old line by a new one. -/
def Replaces (hs : List Hunk) (L M : Nat) : Prop :=
  ∃ h ∈ hs, ∃ k, k < h.oldSize ∧ k < h.newSize ∧ L = h.oldStart + k + 1 ∧ M = h.newStart + k + 1

/-- A hunk drops an old line. -/
def Drops (hs : List Hunk) (L : Nat) : Prop :=
  ∃ h ∈ hs, ∃ k, h.newSize ≤ k ∧ k < h.oldSize ∧ L = h.oldStart + k + 1

/-- The lines of a hunk on one side beyond as many as it has on the other one. -/
def excess (side other : Hunk → Nat × Nat) (h : Hunk) : List Nat :=
  List.range' ((side h).1 + ((other h).2 - (other h).1) + 1)
    ((side h).2 - (side h).1 - ((other h).2 - (other h).1))

/-- The old lines that a hunk drops. -/
def dropped : Hunk → List Nat :=
  excess old new

/-- The new lines that a hunk brings. -/
def brought : Hunk → List Nat :=
  excess new old

theorem lt_of_mem_excess {side other : Hunk → Nat × Nat} {h : Hunk} {x : Nat}
    (hx : x ∈ excess side other h) :
    (side h).1 + ((other h).2 - (other h).1) < x ∧ x ≤ (side h).2 := by
  obtain ⟨le, lt⟩ := List.mem_range'_1.mp hx
  omega

theorem drops_iff {hs : List Hunk} {L : Nat} : Drops hs L ↔ L ∈ hs.flatMap dropped := by
  simp only [Drops, oldSize, newSize, dropped, excess, old, new, List.mem_flatMap,
    List.mem_range'_1]
  constructor
  · rintro ⟨h, hh, k, newLe, oldLt, rfl⟩
    exact ⟨h, hh, by omega, by omega⟩
  · rintro ⟨h, hh, le, lt⟩
    exact ⟨h, hh, L - h.oldStart - 1, by omega, by omega, by omega⟩

/-! ### Lines in no hunk -/

section Outside

variable {a b i n : Nat} {stretches : List (Nat × Nat)}

theorem outside_nil : outside [] i n = List.range' (i + 1) (n - i) :=
  List.filter_eq_self.mpr fun _ _ => rfl

/-- Before a stretch all lines are outside, and in it none. -/
theorem outside_cons (hi : i ≤ a) (hab : a ≤ b) (hb : b ≤ n) (h : ∀ s ∈ stretches, b ≤ s.1) :
    outside ((a, b) :: stretches) i n = List.range' (i + 1) (a - i) ++ outside stretches b n := by
  have split : List.range' (i + 1) (n - i) =
      List.range' (i + 1) (a - i) ++
        (List.range' (a + 1) (b - a) ++ List.range' (b + 1) (n - b)) := by
    have inner := List.range'_append_1 (s := a + 1) (m := b - a) (n := n - b)
    have outer := List.range'_append_1 (s := i + 1) (m := a - i) (n := n - a)
    rw [show a + 1 + (b - a) = b + 1 by omega, show b - a + (n - b) = n - a by omega] at inner
    rw [show i + 1 + (a - i) = a + 1 by omega, show a - i + (n - a) = n - i by omega] at outer
    calc List.range' (i + 1) (n - i)
        = List.range' (i + 1) (a - i) ++ List.range' (a + 1) (n - a) := outer.symm
      _ = _ := by rw [inner]
  have before : ∀ line ∈ List.range' (i + 1) (a - i),
      isOutside ((a, b) :: stretches) line = true := by
    intro line hl
    obtain ⟨-, lt⟩ := List.mem_range'_1.mp hl
    refine List.all_eq_true.mpr fun s hs => decide_eq_true ?_
    rcases List.mem_cons.mp hs with rfl | hs
    · exact .inl (by omega)
    · have := h s hs
      exact .inl (by omega)
  have inside : ∀ line ∈ List.range' (a + 1) (b - a),
      ¬ isOutside ((a, b) :: stretches) line = true := by
    intro line hl out
    obtain ⟨le, lt⟩ := List.mem_range'_1.mp hl
    have apart := of_decide_eq_true (List.all_eq_true.mp out (a, b) List.mem_cons_self)
    dsimp only at apart
    omega
  have behind : ∀ line ∈ List.range' (b + 1) (n - b),
      isOutside ((a, b) :: stretches) line = isOutside stretches line := by
    intro line hl
    obtain ⟨le, -⟩ := List.mem_range'_1.mp hl
    have apart : decide (line ≤ a ∨ b < line) = true := decide_eq_true (.inr (by omega))
    rw [isOutside, List.all_cons, apart, Bool.true_and]
    rfl
  have none := List.filter_eq_nil_iff.mpr inside
  have all := List.filter_eq_self.mpr before
  unfold outside
  rw [split, List.filter_append, List.filter_append, all, none, List.nil_append,
    List.filter_congr behind]

end Outside

/-! ### Following the hunks -/

/-- Following the hunks behind `i` of the `m` old and `j` new lines, an old line
leads to a new one. -/
inductive Leads (m : Nat) : Nat → Nat → List Hunk → Nat → Nat → Prop
  | tail {i j k : Nat} (h : i + k < m) : Leads m i j [] (i + k + 1) (j + k + 1)
  | before {i j k : Nat} {h : Hunk} {hs : List Hunk} (lt : i + k < h.oldStart) :
      Leads m i j (h :: hs) (i + k + 1) (j + k + 1)
  | inside {i j k : Nat} {h : Hunk} {hs : List Hunk} (oldLt : k < h.oldSize)
      (newLt : k < h.newSize) : Leads m i j (h :: hs) (h.oldStart + k + 1) (h.newStart + k + 1)
  | behind {i j L M : Nat} {h : Hunk} {hs : List Hunk}
      (rest : Leads m h.oldStop h.newStop hs L M) : Leads m i j (h :: hs) L M

theorem Leads.pos {m i j L M : Nat} {hs : List Hunk} (h : Leads m i j hs L M) : 1 ≤ M := by
  induction h with
  | behind rest ih => exact ih
  | _ => omega

section Tiles

variable {α : Type} {old new : List α} {i j L M : Nat} {hs : List Hunk}

theorem Leads.lt (tiles : Tiles old new i j hs) (h : Leads old.length i j hs L M) :
    i < L ∧ L ≤ old.length := by
  induction h with
  | tail h => omega
  | before lt =>
    cases tiles with
    | cons next =>
      have oldStop := next.oldStop
      have oldEnd := next.oldEnd
      omega
  | @inside i j k h hs oldLt =>
    cases tiles with
    | cons next =>
      have oldFrom := next.oldFrom
      have oldEnd := next.oldEnd
      unfold oldSize at oldLt
      omega
  | behind rest ih =>
    cases tiles with
    | cons next apart tiles =>
      have := ih tiles
      have oldFrom := next.oldFrom
      have oldStop := next.oldStop
      omega

/-- A line that leads somewhere is not dropped. -/
theorem Leads.not_drops (tiles : Tiles old new i j hs) (h : Leads old.length i j hs L M) :
    ¬ Drops hs L := by
  induction h with
  | tail => rintro ⟨h, hh, -⟩; cases hh
  | @before i j k h hs lt =>
    rintro ⟨h', hh', k', -, -, e⟩
    cases tiles with
    | cons next apart rest =>
      have oldStop := next.oldStop
      rcases List.mem_cons.mp hh' with rfl | hh'
      · omega
      · have := apart h' hh'
        omega
  | @inside i j k h hs oldLt newLt =>
    rintro ⟨h', hh', k', newLe, -, e⟩
    cases tiles with
    | cons next apart rest =>
      unfold oldSize at oldLt
      rcases List.mem_cons.mp hh' with rfl | hh'
      · omega
      · have := apart h' hh'
        omega
  | @behind i j L M h hs rest ih =>
    cases tiles with
    | cons next apart tiles =>
      rintro ⟨h', hh', k', newLe, oldLt, e⟩
      rcases List.mem_cons.mp hh' with rfl | hh'
      · have := (rest.lt tiles).1
        unfold oldSize at oldLt
        omega
      · exact ih tiles ⟨h', hh', k', newLe, oldLt, e⟩

/-- A line that does not lead anywhere is dropped. -/
theorem leads_or_drops (tiles : Tiles old new i j hs) (hi : i < L) (hL : L ≤ old.length) :
    (∃ M, Leads old.length i j hs L M) ∨ Drops hs L := by
  induction tiles with
  | @nil i j =>
    obtain ⟨k, rfl⟩ : ∃ k, L = i + k + 1 := ⟨L - i - 1, by omega⟩
    exact .inl ⟨_, .tail (by omega)⟩
  | @cons i j h hs next apart rest ih =>
    by_cases before : L ≤ h.oldStart
    · obtain ⟨k, rfl⟩ : ∃ k, L = i + k + 1 := ⟨L - i - 1, by omega⟩
      exact .inl ⟨_, .before (by omega)⟩
    · by_cases inside : L ≤ h.oldStop
      · obtain ⟨k, rfl⟩ : ∃ k, L = h.oldStart + k + 1 := ⟨L - h.oldStart - 1, by omega⟩
        have oldLt : k < h.oldSize := by
          unfold oldSize
          omega
        by_cases newLt : k < h.newSize
        · exact .inl ⟨_, .inside oldLt newLt⟩
        · exact .inr ⟨h, List.mem_cons_self, k, by omega, oldLt, rfl⟩
      · rcases ih (by omega) with ⟨M, hM⟩ | ⟨h', hh', drops⟩
        · exact .inl ⟨M, .behind hM⟩
        · exact .inr ⟨h', List.mem_cons_of_mem _ hh', drops⟩

/-- Before a hunk lines are counted alike, and from its end on they are counted anew. -/
theorem keeps_cons {h : Hunk} (next : h.Follows old new i j)
    (rest : Tiles old new h.oldStop h.newStop hs) :
    Keeps (h :: hs) i old.length j new.length L M ↔
      (∃ k, i + k < h.oldStart ∧ L = i + k + 1 ∧ M = j + k + 1) ∨
        Keeps hs h.oldStop old.length h.newStop new.length L M := by
  have start := rest.start_le
  have oldFrom := next.oldFrom
  have level := next.level
  have oldSide : outside ((h :: hs).map Hunk.old) i old.length =
      List.range' (i + 1) (h.oldStart - i) ++ outside (hs.map Hunk.old) h.oldStop old.length := by
    apply outside_cons next.oldFrom next.oldStop next.oldEnd
    intro s hs'
    obtain ⟨h', hh', rfl⟩ := List.mem_map.mp hs'
    exact (start h' hh').1
  have newSide : outside ((h :: hs).map Hunk.new) j new.length =
      List.range' (j + 1) (h.oldStart - i) ++ outside (hs.map Hunk.new) h.newStop new.length := by
    rw [show h.oldStart - i = h.newStart - j by omega]
    apply outside_cons (by omega) next.newStop next.newEnd
    intro s hs'
    obtain ⟨h', hh', rfl⟩ := List.mem_map.mp hs'
    exact (start h' hh').2
  unfold Keeps
  rw [oldSide, newSide]
  constructor
  · rintro ⟨k, hL, hM⟩
    by_cases lt : k < h.oldStart - i
    · rw [List.getElem?_append_left (by simpa using lt), List.getElem?_range' lt] at hL hM
      cases hL
      cases hM
      exact .inl ⟨k, by omega, by omega, by omega⟩
    · rw [List.getElem?_append_right (by simpa using lt), List.length_range'] at hL hM
      exact .inr ⟨_, hL, hM⟩
  · rintro (⟨k, lt, rfl, rfl⟩ | ⟨k, hL, hM⟩)
    · refine ⟨k, ?_, ?_⟩ <;>
        rw [List.getElem?_append_left (by simp; omega), List.getElem?_range' (by omega)] <;>
        exact congrArg some (by omega)
    · refine ⟨h.oldStart - i + k, ?_, ?_⟩ <;>
        rw [List.getElem?_append_right (by simp), List.length_range', Nat.add_sub_cancel_left] <;>
        assumption

theorem keeps_nil (level : new.length + i = old.length + j) :
    Keeps [] i old.length j new.length L M ↔
      ∃ k, i + k < old.length ∧ L = i + k + 1 ∧ M = j + k + 1 := by
  unfold Keeps
  rw [List.map_nil, List.map_nil, outside_nil, outside_nil]
  constructor
  · rintro ⟨k, hL, hM⟩
    have lt := (List.getElem?_eq_some_iff.mp hL).1
    rw [List.length_range'] at lt
    rw [List.getElem?_range' (by omega)] at hL hM
    cases hL
    cases hM
    exact ⟨k, by omega, by omega, by omega⟩
  · rintro ⟨k, lt, rfl, rfl⟩
    refine ⟨k, ?_, ?_⟩ <;> rw [List.getElem?_range' (by omega)] <;> exact congrArg some (by omega)

/-- Lines are led to the lines that they are kept as or replaced by. -/
theorem leads_iff (tiles : Tiles old new i j hs) :
    Leads old.length i j hs L M ↔ Keeps hs i old.length j new.length L M ∨ Replaces hs L M := by
  induction tiles with
  | @nil i j oldEnd newEnd level alike =>
    rw [keeps_nil level]
    constructor
    · rintro ⟨lt⟩
      exact .inl ⟨_, lt, rfl, rfl⟩
    · rintro (⟨k, lt, rfl, rfl⟩ | ⟨h, hh, -⟩)
      · exact .tail lt
      · cases hh
  | @cons i j h hs next apart rest ih =>
    rw [keeps_cons next rest]
    constructor
    · intro leads
      cases leads with
      | before lt => exact .inl (.inl ⟨_, lt, rfl, rfl⟩)
      | inside oldLt newLt => exact .inr ⟨h, List.mem_cons_self, _, oldLt, newLt, rfl, rfl⟩
      | behind leads =>
        rcases ih.mp leads with keeps | ⟨h', hh', replaces⟩
        · exact .inl (.inr keeps)
        · exact .inr ⟨h', List.mem_cons_of_mem _ hh', replaces⟩
    · rintro ((⟨k, lt, rfl, rfl⟩ | keeps) | ⟨h', hh', k, oldLt, newLt, rfl, rfl⟩)
      · exact .before lt
      · exact .behind (ih.mpr (.inl keeps))
      · rcases List.mem_cons.mp hh' with rfl | hh'
        · exact .inside oldLt newLt
        · exact .behind (ih.mpr (.inr ⟨h', hh', k, oldLt, newLt, rfl, rfl⟩))

theorem Keeps.same (tiles : Tiles old new i j hs)
    (keeps : Keeps hs i old.length j new.length L M) :
    1 ≤ L ∧ 1 ≤ M ∧ old[L - 1]? = new[M - 1]? := by
  induction tiles with
  | nil oldEnd newEnd level alike =>
    obtain ⟨k, -, rfl, rfl⟩ := (keeps_nil level).mp keeps
    exact ⟨by omega, by omega, alike k⟩
  | cons next apart rest ih =>
    rcases (keeps_cons next rest).mp keeps with ⟨k, lt, rfl, rfl⟩ | keeps
    · exact ⟨by omega, by omega, next.alike k lt⟩
    · exact ih keeps

end Tiles
end Lineage.Hunk
