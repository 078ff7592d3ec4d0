/-
# Where a diff moves a line

The layout of a computed diff is ordered, and the lines it leaves over are those
that hunks drop and bring. Up to a line that leads somewhere the brought lines of
the hunks above it are all counted, and then the line is where it leads to. The
brought lines of the hunks further down are not to be counted. One of them is if
too many dropped lines stand between its number and the line; a line without one
like that is clear, and only clear lines are moved to where they lead.

Key definitions: `Hunk.Clear`, `Hunk.Split`.
Key theorems: `Hunk.Leads.split`, `Layout.mapLine_of_leads`.
-/
import Lineage.Proofs.Layout.Shifting

namespace Lineage

namespace Hunk

/-- No line that is brought below new line `M` is within reach of old line `L`: the
lines dropped from behind its number on up to `L` do not make up for its distance. -/
def Clear (hs : List Hunk) (L M : Nat) : Prop :=
  ∀ x ∈ hs.flatMap brought, M < x →
    M + (hs.flatMap dropped).countP (fun y => x < y ∧ y ≤ L) < x

/-- The number of lines that hunks drop up to a line. -/
def droppedUpTo (hs : List Hunk) (L : Nat) : Nat :=
  (hs.flatMap dropped).countP (· ≤ L)

/-- Numbers that increase between two numbers are fewer than the distance. -/
theorem length_lt_of_between {L : Nat} : ∀ {i : Nat} {ys : List Nat}, i < L →
    ys.Pairwise (· < ·) → (∀ y ∈ ys, i < y ∧ y < L) → ys.length + i < L
  | i, [], lt, _, _ => by rwa [List.length_nil, Nat.zero_add]
  | i, y :: ys, _, increasing, between => by
    obtain ⟨first, increasing⟩ := List.pairwise_cons.mp increasing
    obtain ⟨above, below⟩ := between y List.mem_cons_self
    have rest := length_lt_of_between below increasing fun z hz =>
      ⟨first z hz, (between z (List.mem_cons_of_mem _ hz)).2⟩
    rw [List.length_cons]
    omega

section Tiles

variable {old new : List (List Char)} {i j L M : Nat} {hs : List Hunk}

theorem pairwise_dropped (tiles : Tiles old new i j hs) :
    (hs.flatMap dropped).Pairwise (· < ·) := by
  have lines : ((Layout.ofHunks old new hs).deletions.map LineChange.line).Pairwise (· < ·) :=
    List.pairwise_map.mpr
      (Layout.pairwise_surplus .delete old (tiles.pairwise.imp And.left) newSize)
  rw [Layout.line_deletions tiles, List.pairwise_map] at lines
  exact lines.imp Int.ofNat_lt.mp

theorem droppedUpTo_lt (tiles : Tiles old new i j hs) (hi : i < L) (kept : ¬ Drops hs L) :
    droppedUpTo hs L + i < L := by
  unfold droppedUpTo
  rw [List.countP_eq_length_filter]
  apply length_lt_of_between hi ((pairwise_dropped tiles).filter _)
  intro y hy
  obtain ⟨mem, le⟩ := List.mem_filter.mp hy
  have le := of_decide_eq_true le
  have ne : y ≠ L := fun e => kept (drops_iff.mpr (e ▸ mem))
  obtain ⟨h, hh, hy⟩ := List.mem_flatMap.mp mem
  have start := (tiles.start_le h hh).1
  have above : h.oldStart + _ < y := (lt_of_mem_excess hy).1
  omega

/-- What the first hunk has in excess on a side, and what the hunks behind it have, is behind
its lines that there are on both sides. -/
theorem lt_of_mem_excess_cons {side other : Hunk → Nat × Nat} {h : Hunk}
    (ordered : (side h).1 ≤ (side h).2) (behind : ∀ h' ∈ hs, (side h).2 ≤ (side h').1) {x : Nat}
    (hx : x ∈ (h :: hs).flatMap (excess side other)) :
    (side h).1 + min ((side h).2 - (side h).1) ((other h).2 - (other h).1) < x := by
  obtain ⟨h', hh', hx⟩ := List.mem_flatMap.mp hx
  have above := (lt_of_mem_excess hx).1
  rcases List.mem_cons.mp hh' with rfl | hh'
  · omega
  · have := behind h' hh'
    omega

theorem droppedUpTo_eq_zero {h : Hunk} (tiles : Tiles old new i j (h :: hs))
    (hL : L ≤ h.oldStart + min h.oldSize h.newSize) : droppedUpTo (h :: hs) L = 0 := by
  apply List.countP_eq_zero.mpr
  intro y hy
  cases tiles with
  | cons next apart rest =>
    have beyond := lt_of_mem_excess_cons next.oldStop (fun h' hh' => Nat.le_of_lt (apart h' hh')) hy
    rw [decide_eq_true_eq]
    exact Nat.not_le_of_lt (Nat.lt_of_le_of_lt hL beyond)

theorem droppedUpTo_cons {h : Hunk} (hL : h.oldStop < L) :
    droppedUpTo (h :: hs) L = h.oldSize - h.newSize + droppedUpTo hs L := by
  have all : h.dropped.countP (· ≤ L) = h.dropped.length := by
    refine List.countP_eq_length.mpr fun y hy => decide_eq_true ?_
    exact Nat.le_of_lt (Nat.lt_of_le_of_lt (lt_of_mem_excess hy).2 hL)
  unfold droppedUpTo
  rw [List.flatMap_cons, List.countP_append, all, dropped, excess, List.length_range']
  rfl

/-- The brought lines are those of the hunks above a line that leads somewhere, each
in time for it, and those of the hunks further down. -/
structure Split (hs : List Hunk) (i j L M : Nat) (above later : List Nat) : Prop where
  brought : hs.flatMap brought = above ++ later
  inTime : ∀ (k x : Nat), above[k]? = some x → x + i + droppedUpTo hs L ≤ L + j + k
  place : M + i + droppedUpTo hs L = L + j + above.length
  beyond : ∀ x ∈ later, M < x

theorem Split.first {h : Hunk} (tiles : Tiles old new i j (h :: hs)) (place : M + i = L + j)
    (hL : L ≤ h.oldStart + min h.oldSize h.newSize)
    (hM : M ≤ h.newStart + min h.oldSize h.newSize) :
    Split (h :: hs) i j L M [] ((h :: hs).flatMap Hunk.brought) where
  brought := (List.nil_append _).symm
  inTime k x hx := by simp at hx
  place := by
    rw [droppedUpTo_eq_zero tiles hL, List.length_nil]
    omega
  beyond x hx := by
    cases tiles with
    | cons next apart rest =>
      have beyond := lt_of_mem_excess_cons next.newStop (fun h' hh' => (rest.start_le h' hh').2) hx
      refine Nat.lt_of_le_of_lt hM ?_
      rwa [Nat.min_comm] at beyond

/-- Behind the first hunk, what it brings comes first. It is in time, since not all
lines behind it are dropped. -/
theorem Split.behind {h : Hunk} {above later : List Nat} (next : h.Follows old new i j)
    (rest : Tiles old new h.oldStop h.newStop hs)
    (leads : Leads old.length h.oldStop h.newStop hs L M)
    (split : Split hs h.oldStop h.newStop L M above later) :
    Split (h :: hs) i j L M (h.brought ++ above) later := by
  have level := next.level
  have oldStop := next.oldStop
  have newStop := next.newStop
  have oldSize : h.oldSize = h.oldStop - h.oldStart := rfl
  have newSize : h.newSize = h.newStop - h.newStart := rfl
  have size : h.brought.length = h.newSize - h.oldSize := List.length_range'
  have hL := (leads.lt rest).1
  have few := droppedUpTo_lt rest hL (leads.not_drops rest)
  have place := split.place
  have dropped : droppedUpTo (h :: hs) L = h.oldSize - h.newSize + droppedUpTo hs L :=
    droppedUpTo_cons hL
  refine ⟨?_, fun k x hx => ?_, ?_, split.beyond⟩
  · rw [List.flatMap_cons, split.brought, List.append_assoc]
  · rw [dropped]
    by_cases lt : k < h.brought.length
    · rw [List.getElem?_append_left lt, Hunk.brought, Hunk.excess,
        List.getElem?_range' (size ▸ lt)] at hx
      have line : h.newStart + h.oldSize + 1 + 1 * k = x := Option.some.inj hx
      omega
    · rw [List.getElem?_append_right (by omega)] at hx
      have := split.inTime _ x hx
      omega
  · rw [dropped, List.length_append, size]
    omega

theorem Leads.split (tiles : Tiles old new i j hs) (leads : Leads old.length i j hs L M) :
    ∃ above later, Split hs i j L M above later := by
  induction leads with
  | tail lt =>
    refine ⟨[], [], rfl, fun k x hx => (by simp at hx), ?_, by simp⟩
    rw [droppedUpTo, List.flatMap_nil, List.countP_nil, List.length_nil]
    omega
  | @before i j k h hs lt =>
    have level : h.newStart + i = h.oldStart + j := by
      cases tiles with
      | cons next => exact next.level
    exact ⟨[], _, .first tiles (by omega) (by omega) (by omega)⟩
  | @inside i j k h hs oldLt newLt =>
    have level : h.newStart + i = h.oldStart + j := by
      cases tiles with
      | cons next => exact next.level
    exact ⟨[], _, .first tiles (by omega) (by omega) (by omega)⟩
  | @behind i j L M h hs leads ih =>
    cases tiles with
    | cons next apart rest =>
      obtain ⟨above, later, split⟩ := ih rest
      exact ⟨h.brought ++ above, later, split.behind next rest leads⟩

theorem countP_between (x L : Nat) : ∀ ys : List Nat,
    ys.countP (fun y => x < y ∧ y ≤ L) + ys.countP (· ≤ min x L) = ys.countP (· ≤ L)
  | [] => rfl
  | y :: ys => by
    have rest := countP_between x L ys
    simp only [List.countP_cons, decide_eq_true_eq]
    by_cases lt : x < y <;> by_cases le : y ≤ L
    · rw [if_pos ⟨lt, le⟩, if_neg (by omega), if_pos le]
      omega
    · rw [if_neg fun h => le h.2, if_neg (by omega), if_neg le]
      omega
    · rw [if_neg fun h => lt h.1, if_pos (by omega), if_pos le]
      omega
    · rw [if_neg fun h => lt h.1, if_neg (by omega), if_neg le]
      omega

theorem Split.clear_iff {above later : List Nat} (split : Split hs 0 0 L M above later) :
    Clear hs L M ↔ ∀ x ∈ later, L + above.length < x + droppedUpTo hs (min x L) := by
  have place := split.place
  have late : ∀ x : Nat, M + (hs.flatMap dropped).countP (fun y => x < y ∧ y ≤ L) < x ↔
      L + above.length < x + droppedUpTo hs (min x L) := fun x => by
    have between : _ + droppedUpTo hs (min x L) = droppedUpTo hs L := countP_between x L _
    omega
  unfold Clear
  rw [split.brought]
  constructor
  · intro clear x hx
    exact (late x).mp (clear x (List.mem_append_right _ hx) (split.beyond x hx))
  · intro none x hx lt
    rcases List.mem_append.mp hx with hx | hx
    · obtain ⟨k, hk⟩ := List.mem_iff_getElem?.mp hx
      have inTime := split.inTime k x hk
      have bound := (List.getElem?_eq_some_iff.mp hk).1
      omega
    · exact (late x).mpr (none x hx)

end Tiles

end Hunk

/-! ### The layout of hunks -/

namespace Layout

open Hunk

variable {old new : List (List Char)} {i j L M : Nat} {hs : List Hunk}

theorem ordered_ofHunks (tiles : Tiles old new i j hs) : (ofHunks old new hs).Ordered where
  deletes c hc := by
    obtain ⟨h, -, hc⟩ := List.mem_flatMap.mp hc
    exact flags_of_mem hc
  inserts c hc := by
    obtain ⟨h, -, hc⟩ := List.mem_flatMap.mp hc
    exact (flags_of_mem hc).symm
  deletions := pairwise_surplus .delete old (tiles.pairwise.imp And.left) newSize
  insertions := pairwise_surplus .insert new (tiles.pairwise.imp And.right) oldSize

theorem upTo_ofHunks (tiles : Tiles old new i j hs) (L : Nat) :
    upTo L (ofHunks old new hs).deletions = droppedUpTo hs L := by
  have deletes := (ordered_ofHunks tiles).deletes
  calc upTo L (ofHunks old new hs).deletions
      = ((ofHunks old new hs).deletions.map LineChange.line).countP (· ≤ (L : Int)) := by
        rw [List.countP_map]
        apply List.countP_congr
        intro c hc
        rw [(deletes c hc).1, Bool.true_and]
        rfl
    _ = ((hs.flatMap dropped).map fun n : Nat => (n : Int)).countP (· ≤ (L : Int)) := by
        rw [line_deletions tiles]
    _ = droppedUpTo hs L := by
        rw [List.countP_map]
        apply List.countP_congr
        intro y _
        simp only [Function.comp_apply, decide_eq_true_eq, Int.ofNat_le]

theorem deletes_ofHunks (tiles : Tiles old new i j hs) (L : Nat) :
    (ofHunks old new hs).deletes L = true ↔ Drops hs L := by
  have numbers := line_deletions tiles
  unfold Layout.deletes
  rw [drops_iff, List.any_eq_true]
  constructor
  · rintro ⟨c, hc, same⟩
    have hl := List.mem_map_of_mem (f := LineChange.line) hc
    rw [numbers] at hl
    obtain ⟨y, hy, e⟩ := List.mem_map.mp hl
    obtain rfl : y = L := Int.ofNat.inj (e.trans (eq_of_beq same))
    exact hy
  · intro hL
    have hl : (L : Int) ∈ (ofHunks old new hs).deletions.map LineChange.line := by
      rw [numbers]
      exact List.mem_map_of_mem hL
    obtain ⟨c, hc, e⟩ := List.mem_map.mp hl
    exact ⟨c, hc, beq_iff_eq.mpr e⟩

/-- How many deletions an insertion finds counted before it. -/
theorem upTo_min (tiles : Tiles old new i j hs) (x L : Nat) :
    upTo (min (x : Int) L) (ofHunks old new hs).deletions = droppedUpTo hs (min x L) := by
  have same : min (x : Int) (L : Int) = ((min x L : Nat) : Int) := by omega
  rw [same, upTo_ofHunks tiles]

/-- The insertions above a line that leads somewhere are all counted. -/
theorem mapLine_of_split (tiles : Tiles old new 0 0 hs) {above later : List Nat}
    (split : Split hs 0 0 L M above later) :
    (ofHunks old new hs).mapLine L = L - droppedUpTo hs L +
      counted L (fun x => upTo (min x L) (ofHunks old new hs).deletions) above.length
        (later.map fun n : Nat => (n : Int)) := by
  rw [(ordered_ofHunks tiles).mapLine_eq, upTo_ofHunks tiles, line_insertions tiles, split.brought,
    List.map_append, counted_append, List.length_map, Int.zero_add]
  intro k x hx
  rw [List.getElem?_map] at hx
  obtain ⟨n, hn, rfl⟩ := Option.map_eq_some_iff.mp hx
  have inTime := split.inTime k n hn
  have between : _ + droppedUpTo hs (min n L) = droppedUpTo hs L := countP_between n L _
  rw [upTo_min tiles]
  omega

/-- A line is moved to where it leads or further, and further unless it is clear. -/
theorem mapLine_of_leads (tiles : Tiles old new 0 0 hs) (leads : Leads old.length 0 0 hs L M) :
    ∃ N : Nat, (ofHunks old new hs).mapLine L = N ∧ M ≤ N ∧ (N = M ↔ Clear hs L M) := by
  obtain ⟨above, later, split⟩ := leads.split tiles
  have place := split.place
  have moved := mapLine_of_split tiles split
  by_cases clear : Clear hs L M
  · have none : ∀ x ∈ later.map (fun n : Nat => (n : Int)),
        (L : Int) + above.length < x + upTo (min x L) (ofHunks old new hs).deletions := by
      intro x hx
      obtain ⟨n, hn, rfl⟩ := List.mem_map.mp hx
      have late := split.clear_iff.mp clear n hn
      rw [upTo_min tiles]
      omega
    rw [counted_eq_self none] at moved
    exact ⟨M, by omega, Nat.le_refl _, iff_of_true rfl clear⟩
  · obtain ⟨x, hx, early⟩ : ∃ x ∈ later, x + droppedUpTo hs (min x L) ≤ L + above.length := by
      by_contra no
      refine clear (split.clear_iff.mpr fun x hx => Nat.lt_of_not_le fun le => no ⟨x, hx, le⟩)
    have early : (x : Int) + upTo (min (x : Int) L) (ofHunks old new hs).deletions ≤
        L + above.length := by
      rw [upTo_min tiles]
      omega
    have more : (above.length : Int) <
        counted L (fun x => upTo (min x L) (ofHunks old new hs).deletions) above.length
          (later.map fun n : Nat => (n : Int)) :=
      lt_counted early (Int.le_refl _) (List.mem_map_of_mem hx)
    exact ⟨((ofHunks old new hs).mapLine L).toNat, by omega, by omega,
      iff_of_false (by omega) clear⟩

end Layout
end Lineage
