/-
# Applying a change to a position

A position in a line that no hunk touches should be found at the same column of the
same line in the new file, one in a line that is replaced in the line that replaces
it, and one in a line that is dropped nowhere. It is so for dropped lines, and for
lines that are clear. The position in any other line is looked for further down than
the line leads to, as lines brought below it are counted as if they stood above it
(`Position.apply_lands`); four lines that become two are enough for that
(`Position.apply_misplaced`).

Key definitions: `Position.StandsIn`, `Position.Lands`.
Key theorems: `Position.applyLayout_lands`, `Position.apply_lands`.
-/
import Lineage.Proofs.Archive.Settling
import Lineage.Proofs.Layout.Moving
import Lineage.Proofs.Text.Offsets

namespace Lineage.Position

open Text (plainLines splitLines)

/-- A position that a look-up in a file with the given text finds. -/
structure StandsIn (p : Position) (file : File) (text : List Char) : Prop where
  version : file.version = p.file.version
  found : Text.placeAt p.tabSize (splitLines text) p.line p.column = some p.toPlace ∨
    Text.placeOf p.tabSize (splitLines text) p.offset = some p.toPlace

/-- What becomes of a position on line `N` of a new file: nothing if there is no such
line or an empty one, otherwise the position in the same column if the line is the old
one, and in the first column if it is another one. -/
def Lands (p : Position) (new : File) (before after : List Char) (N : Nat) :
    Option Position → Prop
  | none => (plainLines after)[N - 1]? = none ∨ (plainLines after)[N - 1]? = some []
  | some q => q.file = new ∧ q.StandsIn new after ∧ q.line = N ∧ q.tabSize = p.tabSize ∧
      if (plainLines before)[(p.line - 1).toNat]? = (plainLines after)[N - 1]? then
        q.column = p.column ∧ q.lineOffset = p.lineOffset
      else q.column = 1 ∧ q.lineOffset = 0

section Look

variable {p : Position} {file old new : File} {a : Archive} {text before after : List Char}

theorem standsIn_of_positionAt {line column tab : Int} (ht : file.text.Settled a text)
    (h : (file.positionAt line column tab).answer a = .ok (some p)) : p.StandsIn file text := by
  obtain ⟨place, htab, found, rfl⟩ := File.exists_of_positionAt ht.answer h
  exact ⟨rfl, .inr (Text.placeOf_of_placeAt htab found)⟩

theorem StandsIn.placeAt (h : p.StandsIn file text) :
    Text.placeAt p.tabSize (splitLines text) p.line p.column = some p.toPlace :=
  h.found.elim id Text.placeAt_of_placeOf

theorem StandsIn.exists_line (h : p.StandsIn file text) :
    ∃ (line : Text.Line) (i : Nat), (splitLines text)[(p.line - 1).toNat]? = some line ∧
      Text.offsetInLine p.tabSize p.column 1 line = some i ∧ p.lineOffset = i := by
  obtain ⟨-, -, line, i, hl, hi, -, -, -, he⟩ := Text.placeAt_eq_some.mp h.placeAt
  exact ⟨line, i, hl, hi, he⟩

theorem StandsIn.exists_plain (h : p.StandsIn file text) :
    ∃ line, (plainLines text)[(p.line - 1).toNat]? = some line ∧ line ≠ [] := by
  obtain ⟨line, i, hl, hi, -⟩ := h.exists_line
  refine ⟨Text.stripEnd line, ?_, fun none => ?_⟩
  · unfold plainLines
    rw [List.getElem?_map, hl]
    rfl
  · rw [Text.offsetInLine_stripEnd, none] at hi
    cases hi

theorem StandsIn.exists_number (h : p.StandsIn file text) :
    ∃ L : Nat, p.line = L ∧ 0 < L ∧ L ≤ (plainLines text).length := by
  have pos := p.one_le_line
  obtain ⟨line, hline, -⟩ := h.exists_plain
  have lt := (List.getElem?_eq_some_iff.mp hline).1
  exact ⟨p.line.toNat, by omega, by omega, by omega⟩

theorem StandsIn.exists_offset (h : p.StandsIn old before) {oldLine newLine : List Char}
    {full : Text.Line} (hold : (plainLines before)[(p.line - 1).toNat]? = some oldLine)
    (hfull : full ∈ splitLines after) (hnew : Text.stripEnd full = newLine)
    (filled : newLine ≠ []) :
    ∃ i : Nat, Text.offsetInLine p.tabSize (p.columnIn oldLine newLine) 1 full = some i ∧
      if oldLine = newLine then p.lineOffset = i else i = 0 := by
  rw [Text.offsetInLine_stripEnd, hnew]
  unfold columnIn
  by_cases same : oldLine = newLine
  · obtain ⟨line, i, hl, hi, he⟩ := h.exists_line
    unfold plainLines at hold
    rw [List.getElem?_map, hl] at hold
    rw [Text.offsetInLine_stripEnd, Option.some.inj hold, same] at hi
    rw [if_pos same]
    exact ⟨i, hi, by rwa [if_pos same]⟩
  · rw [if_neg same]
    refine ⟨0, ?_, by rw [if_neg same]⟩
    cases newLine with
    | nil => exact absurd rfl filled
    | cons c rest =>
      have plain := Text.not_terminator_of_mem hfull c (by rw [hnew]; exact List.mem_cons_self)
      rw [Text.offsetInLine, if_neg (by simp [plain]), if_pos rfl]

theorem one_le_columnIn (p : Position) (oldLine newLine : List Char) :
    1 ≤ p.columnIn oldLine newLine := by
  unfold columnIn
  split
  · exact p.one_le_column
  · exact Int.le_refl 1

theorem StandsIn.exists_place (h : p.StandsIn old before) (new : File)
    {oldLine newLine : List Char} {N : Nat} (pos : 1 ≤ N)
    (hold : (plainLines before)[(p.line - 1).toNat]? = some oldLine)
    (hnew : (plainLines after)[N - 1]? = some newLine) (filled : newLine ≠ []) :
    ∃ q, Text.placeAt p.tabSize (splitLines after) N (p.columnIn oldLine newLine) = some q ∧
      p.Lands new before after N (some ⟨q, new, p.tabSize, p.one_le_tabSize⟩) := by
  obtain ⟨full, hfull, strip⟩ : ∃ full, (splitLines after)[N - 1]? = some full ∧
      Text.stripEnd full = newLine := by
    unfold plainLines at hnew
    rw [List.getElem?_map] at hnew
    exact Option.map_eq_some_iff.mp hnew
  obtain ⟨i, hi, offset⟩ := h.exists_offset hold (List.mem_of_getElem? hfull) strip filled
  have index : ((N : Int) - 1).toNat = N - 1 := by omega
  have onLine : (1 : Int) ≤ N := by omega
  obtain ⟨q, hq, qline, qcolumn, qoffset⟩ :=
    Text.exists_placeAt onLine (p.one_le_columnIn oldLine newLine) (index ▸ hfull) hi
  have again : Text.placeAt p.tabSize (splitLines after) q.line q.column = some q := by
    rw [qline, qcolumn]
    exact hq
  refine ⟨q, hq, rfl, ⟨rfl, .inl again⟩, qline, rfl, ?_⟩
  rw [hold, hnew]
  show if some oldLine = some newLine then q.column = p.column ∧ q.lineOffset = p.lineOffset
    else q.column = 1 ∧ q.lineOffset = 0
  rw [qcolumn, qoffset]
  unfold columnIn
  by_cases same : oldLine = newLine
  · rw [if_pos same] at offset
    rw [if_pos (congrArg some same), if_pos same]
    exact ⟨rfl, offset.symm⟩
  · rw [if_neg same] at offset
    rw [if_neg fun e => same (Option.some.inj e), if_neg same]
    exact ⟨rfl, by rw [offset]; rfl⟩

end Look

/-! ### Applying -/

section Apply

variable {p : Position} {c : Change} {old new : File} {a : Archive} {before after : List Char}

/-- A position lands on the line that the layout moves its line to. -/
theorem applyLayout_lands (hb : old.text.Settled a before) (ha : new.text.Settled a after)
    (stands : p.StandsIn old before) {layout : Layout} {N : Nat}
    (kept : layout.deletes p.line = false) (moved : layout.mapLine p.line = N) (pos : 1 ≤ N) :
    ∃ r, (p.applyLayout old new layout).Settled a r ∧ p.Lands new before after N r := by
  have index : ((N : Int) - 1).toNat = N - 1 := by omega
  have onLine : (1 : Int) ≤ N := by omega
  have notBelow : ¬ (N : Int) < 1 := by omega
  have newLines := File.settled_lines ha
  have newReads := new.reads_lines.toSteady
  obtain ⟨oldLine, hold, -⟩ := stands.exists_plain
  unfold applyLayout
  rw [kept, moved, if_neg Bool.false_ne_true]
  cases hnew : (plainLines after)[N - 1]? with
  | none =>
    refine ⟨none, .bind newReads newLines ?_, .inl hnew⟩
    rw [if_neg notBelow, index, hnew]
    exact .pure none a
  | some newLine =>
    cases newLine with
    | nil =>
      refine ⟨none, .bind newReads newLines ?_, .inr hnew⟩
      rw [if_neg notBelow, index, hnew]
      exact .pure none a
    | cons ch rest =>
      obtain ⟨q, hq, lands⟩ := stands.exists_place new pos hold hnew (List.cons_ne_nil _ _)
      have found := File.settled_positionAt ha onLine (p.one_le_columnIn oldLine (ch :: rest))
        p.one_le_tabSize
      rw [hq] at found
      refine ⟨some ⟨q, new, p.tabSize, p.one_le_tabSize⟩, .bind newReads newLines ?_, lands⟩
      rw [if_neg notBelow, index, hnew]
      refine .bind old.reads_lines.toSteady (File.settled_lines hb) ?_
      rw [hold]
      exact .bind (new.reads_positionAt _ _ _).toSteady found (.pure _ a)

section Hunks

variable {hs : List Hunk} {L : Nat}

theorem applyLayout_of_drops (tiles : Hunk.Tiles (plainLines before) (plainLines after) 0 0 hs)
    (hL : p.line = L) (drops : Hunk.Drops hs L) :
    (p.applyLayout old new (.ofHunks (plainLines before) (plainLines after) hs)).Settled a
      none := by
  have deletes := (Layout.deletes_ofHunks tiles L).mpr drops
  unfold applyLayout
  rw [hL, if_pos deletes]
  exact .pure none a

/-- A position in any other line lands where the line leads to or further down, and
further down unless the line is clear. -/
theorem applyLayout_of_kept (tiles : Hunk.Tiles (plainLines before) (plainLines after) 0 0 hs)
    (hb : old.text.Settled a before) (ha : new.text.Settled a after) (hL : p.line = L)
    (stands : p.StandsIn old before) (kept : ¬ Hunk.Drops hs L) :
    ∃ N r,
      (p.applyLayout old new (.ofHunks (plainLines before) (plainLines after) hs)).Settled a r ∧
      p.Lands new before after N r ∧ (∃ M, Hunk.Leads (plainLines before).length 0 0 hs L M) ∧
      ∀ M, Hunk.Leads (plainLines before).length 0 0 hs L M →
        M ≤ N ∧ (N = M ↔ Hunk.Clear hs L M) := by
  obtain ⟨L', hL', pos, bound⟩ := stands.exists_number
  obtain rfl : L = L' := Int.ofNat.inj (hL.symm.trans hL')
  have stays :
      (Layout.ofHunks (plainLines before) (plainLines after) hs).deletes p.line = false := by
    rw [← Bool.not_eq_true, hL]
    exact fun h => kept ((Layout.deletes_ofHunks tiles L).mp h)
  obtain ⟨M, leads⟩ := (Hunk.leads_or_drops tiles pos bound).resolve_right kept
  obtain ⟨N, moved, le, -⟩ := Layout.mapLine_of_leads tiles leads
  have onLine : 1 ≤ N := Nat.le_trans leads.pos le
  obtain ⟨r, settled, lands⟩ := applyLayout_lands hb ha stands stays (hL ▸ moved) onLine
  refine ⟨N, r, settled, lands, ⟨M, leads⟩, fun M' leads' => ?_⟩
  obtain ⟨N', moved', place⟩ := Layout.mapLine_of_leads tiles leads'
  obtain rfl : N' = N := Int.ofNat.inj (moved'.symm.trans moved)
  exact place

end Hunks

theorem answer_apply (hc : c.Compares old new) (version : old.version = p.file.version)
    (computed : c.diff.answer a = .ok (lineDiff (plainLines before) (plainLines after)))
    {r : Option Position}
    (settled : (p.applyLayout old new (.ofHunks (plainLines before) (plainLines after)
      (Hunk.between (plainLines before) (plainLines after)))).Settled (c.diff.after a) r) :
    (p.apply c).answer a = .ok r := by
  unfold apply
  rw [hc.old, hc.new]
  dsimp only
  rw [if_neg fun ne => ne version, Work.answer_bind_ok computed, Layout.ofDiff_lineDiff]
  exact settled.answer

/-- A position stays in its column on a line that is the same. -/
theorem Lands.of_same {M : Nat} {r : Option Position}
    (same : (plainLines before)[(p.line - 1).toNat]? = (plainLines after)[M - 1]?)
    (stands : p.StandsIn old before) (lands : p.Lands new before after M r) :
    ∃ q, r = some q ∧ q.file = new ∧ q.line = M ∧ q.column = p.column ∧
      q.lineOffset = p.lineOffset ∧ q.tabSize = p.tabSize := by
  obtain ⟨line, hline, filled⟩ := stands.exists_plain
  rw [same] at hline
  cases r with
  | none =>
    rcases lands with none | empty
    · rw [hline] at none
      cases none
    · rw [hline] at empty
      exact absurd (Option.some.inj empty) filled
  | some q =>
    obtain ⟨file, -, onLine, tab, column⟩ := lands
    rw [if_pos same] at column
    exact ⟨q, rfl, file, onLine, column.1, column.2, tab⟩

/-- A position in a kept line stays in its column if the line is found again. -/
theorem Lands.of_keeps {hs : List Hunk} {L M : Nat} {r : Option Position} (hL : p.line = L)
    (tiles : Hunk.Tiles (plainLines before) (plainLines after) 0 0 hs)
    (keeps : Hunk.Keeps hs 0 (plainLines before).length 0 (plainLines after).length L M)
    (stands : p.StandsIn old before) (lands : p.Lands new before after M r) :
    ∃ q, r = some q ∧ q.file = new ∧ q.line = M ∧ q.column = p.column ∧
      q.lineOffset = p.lineOffset ∧ q.tabSize = p.tabSize := by
  obtain ⟨-, -, same⟩ := keeps.same tiles
  have index : (p.line - 1).toNat = L - 1 := by omega
  exact lands.of_same (by rw [index, same]) stands

/-- Where a change takes a position. In a line that is dropped it becomes nothing. Any
other line leads somewhere, and the position lands there if the line is clear and
further down if it is not; in particular, one in a kept line is found in the same
column of that line if and only if the line is clear. -/
theorem apply_lands (hc : c.Compares old new) (apart : old.OneHandle new) (sourced : c.Sourced a)
    (hb : old.text.answer a = .ok before) (ha : new.text.answer a = .ok after)
    (stands : p.StandsIn old before) :
    let hs := Hunk.between (plainLines before) (plainLines after)
    let m := (plainLines before).length
    let n := (plainLines after).length
    ∃ (L : Nat) (r : Option Position), p.line = L ∧ (p.apply c).answer a = .ok r ∧
      (Hunk.Drops hs L → r = none) ∧
      (¬ Hunk.Drops hs L → ∃ M, Hunk.Keeps hs 0 m 0 n L M ∨ Hunk.Replaces hs L M) ∧
      (∀ M, Hunk.Keeps hs 0 m 0 n L M ∨ Hunk.Replaces hs L M →
        ∃ N, p.Lands new before after N r ∧ M ≤ N ∧ (N = M ↔ Hunk.Clear hs L M)) ∧
      ∀ M, Hunk.Keeps hs 0 m 0 n L M →
        (Hunk.Clear hs L M ↔ ∃ q, r = some q ∧ q.file = new ∧ q.line = M ∧ q.column = p.column ∧
          q.lineOffset = p.lineOffset ∧ q.tabSize = p.tabSize) := by
  intro hs m n
  have tiles : Hunk.Tiles (plainLines before) (plainLines after) 0 0 hs := Hunk.tiles_between _ _
  have leads_iff {L M : Nat} : Hunk.Leads m 0 0 hs L M ↔ _ := Hunk.leads_iff tiles
  obtain ⟨computed, oldText, newText⟩ := hc.diff apart sourced hb ha
  obtain ⟨L, hL, -⟩ := stands.exists_number
  by_cases drops : Hunk.Drops hs L
  · have gone : (p.applyLayout old new (.ofHunks _ _ hs)).Settled (c.diff.after a) none :=
      applyLayout_of_drops tiles hL drops
    have nowhere : ∀ {M}, ¬ (Hunk.Keeps hs 0 m 0 n L M ∨ Hunk.Replaces hs L M) :=
      fun h => (leads_iff.mpr h).not_drops tiles drops
    exact ⟨L, none, hL, answer_apply hc stands.version computed gone, fun _ => rfl,
      fun kept => absurd drops kept, fun M h => absurd h nowhere,
      fun M h => absurd (.inl h) nowhere⟩
  · obtain ⟨N, r, settled, lands, ⟨M₀, leads⟩, place⟩ :=
      applyLayout_of_kept tiles oldText newText hL stands drops
    refine ⟨L, r, hL, answer_apply hc stands.version computed settled, fun h => absurd h drops,
      fun _ => ⟨M₀, leads_iff.mp leads⟩, fun M h => ⟨N, lands, place M (leads_iff.mpr h)⟩,
      fun M keeps => ?_⟩
    obtain ⟨-, clear⟩ := place M (leads_iff.mpr (.inl keeps))
    rw [← clear]
    constructor
    · rintro rfl
      exact lands.of_keeps hL tiles keeps stands
    · rintro ⟨q, rfl, -, onLine, -⟩
      have here : q.line = N := lands.2.2.1
      omega

end Apply

/-- A line that is brought above moves the position along. -/
theorem apply_lands_below :
    let before := ['k', '\n']
    let after := ['x', '\n', 'k', '\n']
    let old : File := ⟨⟨"a", "r1"⟩, .memory before⟩
    let new : File := ⟨⟨"a", "r2"⟩, .memory after⟩
    let c : Change := ⟨0, some old, some new, .compared⟩
    let p : Position :=
      ⟨⟨1, 1, 0, 0, by decide, by decide, by decide, by decide⟩, old, 4, by decide⟩
    c.Compares old new ∧ p.StandsIn old before ∧
      ∃ q, (p.apply c).answer Archive.empty = .ok (some q) ∧ q.line = 2 ∧ q.column = 1 := by
  intro before after old new c p
  have compares : c.Compares old new := ⟨rfl, rfl, rfl⟩
  have found : (old.positionAt 1 1 4).answer Archive.empty = .ok (some p) := rfl
  have stands : p.StandsIn old before := standsIn_of_positionAt (fun _ _ => rfl) found
  refine ⟨compares, stands, ?_⟩
  obtain ⟨L, r, hL, applied, -, -, -, kept⟩ := apply_lands (a := Archive.empty) compares
    (fun _ some => absurd rfl some) (Change.sourced_of_unkept rfl) rfl rfl stands
  obtain rfl : 1 = L := Int.ofNat.inj hL
  have keeps : Hunk.Keeps (Hunk.between (plainLines before) (plainLines after)) 0 1 0 2 1 2 :=
    ⟨0, by decide, by decide⟩
  have clear : Hunk.Clear (Hunk.between (plainLines before) (plainLines after)) 1 2 := by
    unfold Hunk.Clear
    decide
  obtain ⟨q, rfl, -, line, column, -⟩ := (kept 2 keeps).mp clear
  exact ⟨q, applied, line, column⟩

/-- A position in a line that is kept, lost to a line that is brought below it: three
lines above are dropped, so the number of the line below is not greater than its own. -/
theorem apply_misplaced :
    let before := ['d', '\n', 'd', '\n', 'd', '\n', 'k', '\n']
    let after := ['k', '\n', 'x', '\n']
    let old : File := ⟨⟨"a", "r1"⟩, .memory before⟩
    let new : File := ⟨⟨"a", "r2"⟩, .memory after⟩
    let c : Change := ⟨0, some old, some new, .compared⟩
    let p : Position :=
      ⟨⟨4, 1, 6, 0, by decide, by decide, by decide, by decide⟩, old, 4, by decide⟩
    p.StandsIn old before ∧
      Hunk.Keeps (Hunk.between (plainLines before) (plainLines after)) 0 4 0 2 4 1 ∧
        ∃ q, (p.apply c).answer Archive.empty = .ok (some q) ∧ q.line = 2 := by
  intro before after old new c p
  have found : (old.positionAt 4 1 4).answer Archive.empty = .ok (some p) := rfl
  have stands : p.StandsIn old before := standsIn_of_positionAt (fun _ _ => rfl) found
  refine ⟨stands, ⟨0, by decide, by decide⟩, ?_⟩
  let hs := Hunk.between (plainLines before) (plainLines after)
  let layout := Layout.ofHunks (plainLines before) (plainLines after) hs
  have ordered : layout.Ordered := Layout.ordered_ofHunks (Hunk.tiles_between _ _)
  have moved : layout.mapLine p.line = (2 : Nat) := by
    rw [ordered.mapLine_eq]
    decide
  have compares : c.Compares old new := ⟨rfl, rfl, rfl⟩
  obtain ⟨computed, oldText, newText⟩ := compares.diff (a := Archive.empty)
    (fun _ some => absurd rfl some) (Change.sourced_of_unkept rfl) rfl rfl
  obtain ⟨r, settled, lands⟩ :=
    applyLayout_lands oldText newText stands (by decide) moved (by decide)
  have applied := answer_apply compares rfl computed settled
  cases r with
  | none =>
    rcases lands with gone | empty
    · exact absurd gone (by decide)
    · exact absurd empty (by decide)
  | some q => exact ⟨q, applied, lands.2.2.1⟩

end Lineage.Position
