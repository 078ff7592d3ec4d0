/-
# A table tells its lifespan

The text that is saved for a lifespan is a table: a header and one row of six fields for each
snapshot, whatever characters stand in revisions, paths and metadata (`read_saveTable`). The
fields are decoded again, the numbers from decimal digits and the last two from JSON; the
field in between says whether the number of changes has grown since the row before. Where a row
goes beyond the limits of the writer, the rows above it are saved (`read_rows`).

Key definitions: `Entry`, `Entry.ofRow?`, `Lifespan.Tells`, `Export.rowsWithin`.
Key theorems: `Location.ofJson?_toJson`, `Entry.ofRow?_row`, `Lifespan.tells_rows`,
`Export.read_rows`, `Export.read_saveTable`.
-/
import Lineage.Proofs.Csv.Reading
import Lineage.Proofs.Export.Loading
import Mathlib.Data.List.TakeWhile

namespace Lineage

/-! ### Numbers in digits -/

namespace Text

theorem digitValue_of_isDigit {c : Char} (h : c.isDigit = true) :
    digitValue c = some (c.toNat - '0'.toNat) := by
  have all : ∀ n < 58, 48 ≤ n →
      digitValue (Char.ofNat n) = some ((Char.ofNat n).toNat - '0'.toNat) := by decide
  have range : 48 ≤ c.toNat ∧ c.toNat ≤ 57 := by
    simpa [Char.isDigit, UInt32.le_iff_toNat_le] using h
  have value := all c.toNat (by omega) range.1
  rwa [Char.ofNat_toNat] at value

theorem readDigits_eq {digits : List Char} (h : ∀ c ∈ digits, c.isDigit = true) (n : Nat) :
    readDigits n true digits = some (Nat.ofDigitChars 10 digits n) := by
  induction digits generalizing n with
  | nil => rfl
  | cons c digits ih =>
    obtain ⟨digit, others⟩ := List.forall_mem_cons.mp h
    rw [readDigits, digitValue_of_isDigit digit, Nat.ofDigitChars_cons]
    exact ih others _

theorem readDigits_toDigits (n : Nat) : readDigits 0 false (Nat.toDigits 10 n) = some n := by
  obtain ⟨c, more, split, digit⟩ := exists_toDigits n
  have digits : ∀ c ∈ Nat.toDigits 10 n, c.isDigit = true :=
    fun c hc => Nat.isDigit_of_mem_toDigits (by omega) (by omega) hc
  have value := Nat.ofDigitChars_ten_toDigits (n := n)
  rw [split] at digits value ⊢
  rw [Nat.ofDigitChars_cons] at value
  rw [readDigits, digitValue_of_isDigit digit]
  simp only
  rw [readDigits_eq fun d hd => digits d (List.mem_cons_of_mem _ hd), value]

theorem readSigned_decimal (i : Int) : readSigned (decimal i) = some i := by
  cases i with
  | ofNat n =>
    obtain ⟨c, more, split, digit⟩ := exists_toDigits n
    have value := readDigits_toDigits n
    rw [decimal]
    rw [split] at value ⊢
    rw [readSigned, value]
    · rfl
    all_goals
      rintro _ ⟨⟩
      exact absurd digit (by decide)
  | negSucc n =>
    rw [decimal, readSigned, readDigits_toDigits]
    rfl

end Text

/-! ### Locations in records -/

theorem Record.field_eq_ok {α : Type} {v w : Json} {name : String} {check : Json → Checked α}
    {x : α} (member : v.get? name = some w) (h : check w = .ok x) :
    Record.field v name check = .ok x := by
  unfold Record.field
  rw [member]
  simp only [h, Checked.within]

theorem Record.atLeast_int {low i : Int} (h : low ≤ i) :
    Record.atLeast low (.int i) = .ok ⟨i, h⟩ := by
  unfold Record.atLeast
  rw [Record.whole]
  exact dif_pos h

theorem Corner.ofJson?_eq_ok {v : Json} {word : String} {c : Corner}
    (line : v.get? s!"{word}_line" = some (.int c.line))
    (column : v.get? s!"{word}_column" = some (.int c.column))
    (offset : v.get? s!"{word}_offset" = some (.int c.offset)) :
    Corner.ofJson? v word = .ok c := by
  unfold ofJson?
  rw [Record.field_eq_ok line (Record.atLeast_int c.one_le_line),
    Record.field_eq_ok column (Record.atLeast_int c.one_le_column),
    Record.field_eq_ok offset (Record.atLeast_int c.offset_nonneg)]
  rfl

namespace Location

theorem get?_toJson (l : Location) {word : String} {corner : Corner}
    (h : word = "begin" ∧ corner = l.first ∨ word = "end" ∧ corner = l.last) :
    l.toJson.get? s!"{word}_line" = some (.int corner.line) ∧
    l.toJson.get? s!"{word}_column" = some (.int corner.column) ∧
    l.toJson.get? s!"{word}_offset" = some (.int corner.offset) := by
  obtain ⟨rfl, rfl⟩ | ⟨rfl, rfl⟩ := h <;>
    simp [toString, toJson, Json.get?, Corner.members, List.lookup_cons]

/-- A location is read from its record. -/
theorem ofJson?_toJson (l : Location) : ofJson? l.toJson = .ok l := by
  obtain ⟨line, column, offset⟩ := l.get?_toJson (.inl ⟨rfl, rfl⟩)
  obtain ⟨line', column', offset'⟩ := l.get?_toJson (.inr ⟨rfl, rfl⟩)
  have path : Record.field l.toJson "file" Record.text = .ok l.path :=
    Record.field_eq_ok rfl rfl
  show ofFields? l.toJson = .ok l
  rw [ofFields?, path, Corner.ofJson?_eq_ok line column offset,
    Corner.ofJson?_eq_ok line' column' offset']
  rfl

end Location

/-! ### Rows -/

/-- What a row of a table tells of a snapshot. -/
structure Entry where
  ordinal : Int
  revision : String
  changed : Bool
  changes : Int
  metadata : Json
  locations : List Location

namespace Entry

/-- A truth value in small letters. -/
def flag? (text : List Char) : Option Bool :=
  if text = "true".toList then some true
  else if text = "false".toList then some false
  else none

/-- The locations of an array of records. -/
def locations? : Json → Option (List Location)
  | .arr items => items.mapM fun v => (Location.ofJson? v).toOption
  | _ => none

/-- What a row tells that has six fields, each of its kind. -/
def ofRow? (limits : Json.Limits) : List (List Char) → Option Entry
  | [ordinal, revision, changed, changes, metadata, locations] => do
    return {
      ordinal := ← Text.readSigned ordinal
      revision := String.ofList revision
      changed := ← flag? changed
      changes := ← Text.readSigned changes
      metadata := ← (Json.parse limits metadata).toOption
      locations := ← locations? (← (Json.parse limits locations).toOption) }
  | _ => none

/-- The entry of a snapshot. -/
def ofSnapshot (changed : Bool) (s : Snapshot) : Entry :=
  ⟨s.ordinal, s.revision, changed, s.changes, s.metadata, s.locations⟩

theorem flag?_print (changed : Bool) :
    flag? ((Json.bool changed).print .closed) = some changed := by
  cases changed <;> rfl

theorem locations?_map (ls : List Location) :
    locations? (.arr (ls.map Location.toJson)) = some ls := by
  show (ls.map Location.toJson).mapM (fun v => (Location.ofJson? v).toOption) = some ls
  induction ls with
  | nil => rfl
  | cons l ls ih =>
    rw [List.map_cons, List.mapM_cons, ih, Location.ofJson?_toJson]
    rfl

/-- A row is told from its six fields. -/
theorem ofRow?_row {limits : Json.Limits} {s : Snapshot} (changed : Bool)
    (plain : s.metadata.isPlain = true) (metadata : s.metadata.needs ≤ limits)
    (locations : (Json.arr (s.locations.map Location.toJson)).needs ≤ limits) :
    ofRow? limits (Lifespan.row changed s) = some (ofSnapshot changed s) := by
  have metadata := Json.parse_print .closed plain metadata
  have locations := Json.parse_print .closed s.isPlain_locations locations
  simp only [Lifespan.row, ofRow?, Text.readSigned_decimal, flag?_print, metadata, locations,
    Except.toOption, Option.bind_eq_bind, Option.bind_some, locations?_map, String.ofList_toList]
  rfl

end Entry

namespace Lifespan

/-- Rows of six fields that tell the snapshots of a lifespan in order, and for each one whether
there is a snapshot before it that has fewer changes. -/
structure Tells (limits : Json.Limits) (rows : List (List (List Char))) (l : Lifespan) : Prop where
  length : rows.length = l.snapshots.length
  row : ∀ (i : Nat) (s : Snapshot), l.snapshots[i]? = some s → ∃ row changed,
    rows[i]? = some row ∧ row.length = 6 ∧
      Entry.ofRow? limits row = some (Entry.ofSnapshot changed s) ∧
      (changed = true ↔ ∃ previous, 0 < i ∧ l.snapshots[i - 1]? = some previous ∧
        previous.changes < s.changes)

theorem length_rowsAfter (changes : Int) (ss : List Snapshot) :
    (rowsAfter changes ss).length = ss.length := by
  induction ss generalizing changes with
  | nil => rfl
  | cons s ss ih => rw [rowsAfter, List.length_cons, List.length_cons, ih]

theorem length_snapshotRows (l : Lifespan) : l.snapshotRows.length = l.snapshots.length := by
  rw [snapshotRows, List.length_cons, length_rowsAfter]
  rfl

theorem length_of_mem_rows {l : Lifespan} {row : List (List Char)} (h : row ∈ l.rows) :
    row.length = 6 := by
  have later : ∀ (ss : List Snapshot) (changes : Int), ∀ row ∈ rowsAfter changes ss,
      row.length = 6 := by
    intro ss
    induction ss with
    | nil => exact fun _ _ h => absurd h List.not_mem_nil
    | cons s ss ih => exact fun _ => List.forall_mem_cons.mpr ⟨rfl, ih s.changes⟩
  obtain rfl | h := List.mem_cons.mp h
  · rfl
  · obtain rfl | h := List.mem_cons.mp h
    · rfl
    · exact later _ _ row h

/-- The row of a snapshot compares it with the one before. -/
theorem getElem?_rowsAfter (first : Snapshot) (ss : List Snapshot) {i : Nat} {s : Snapshot}
    (h : ss[i]? = some s) : ∃ previous, (first :: ss)[i]? = some previous ∧
      (rowsAfter first.changes ss)[i]? = some (row (previous.changes < s.changes) s) := by
  induction ss generalizing first i with
  | nil => cases h
  | cons t ss ih =>
    cases i with
    | zero =>
      obtain rfl : t = s := Option.some.inj h
      exact ⟨first, rfl, rfl⟩
    | succ i => exact ih t h

/-- The rows after the header tell the lifespan. -/
theorem tells_rows {limits : Json.Limits} {l : Lifespan}
    (plain : ∀ s ∈ l.snapshots, s.metadata.isPlain = true)
    (fits : ∀ s ∈ l.snapshots, s.metadata.needs ≤ limits ∧
      (Json.arr (s.locations.map Location.toJson)).needs ≤ limits) :
    Tells limits l.snapshotRows l where
  length := l.length_snapshotRows
  row i s h := by
    have known := List.mem_of_getElem? h
    obtain ⟨metadata, locations⟩ := fits s known
    have told (changed : Bool) := Entry.ofRow?_row changed (plain s known) metadata locations
    cases i with
    | zero =>
      obtain rfl : l.first = s := Option.some.inj h
      exact ⟨_, false, rfl, rfl, told false, by simp⟩
    | succ i =>
      obtain ⟨previous, before, here⟩ := getElem?_rowsAfter l.first l.later h
      refine ⟨_, _, here, rfl, told _, ?_⟩
      rw [decide_eq_true_eq]
      exact ⟨fun less => ⟨previous, Nat.succ_pos i, before, less⟩, fun ⟨other, _, same, less⟩ => by
        rwa [Option.some.inj (before.symm.trans same)]⟩

end Lifespan

namespace Export

variable {limits : Json.Limits}

theorem rowStop_eq_none {s : Snapshot} : rowStop limits s = none ↔ ∀ v ∈ [.int s.ordinal,
    .int s.changes, s.metadata, .arr (s.locations.map Location.toJson)], v.needs ≤ limits := by
  unfold rowStop
  rw [List.findSome?_eq_none_iff]
  simp only [Json.stop_write, List.forall_mem_cons]
  exact ⟨fun ⟨metadata, locations, ordinal, changes, rest⟩ =>
      ⟨ordinal, changes, metadata, locations, rest⟩,
    fun ⟨ordinal, changes, metadata, locations, rest⟩ =>
      ⟨metadata, locations, ordinal, changes, rest⟩⟩

/-- The rows above the first one that cannot be written. -/
def rowsWithin (limits : Json.Limits) (rows : List (Snapshot × List (List Char))) :
    List (List (List Char)) :=
  (rows.takeWhile fun x => (rowStop limits x.1).isNone).map Prod.snd

theorem text_writeRows (rows : List (Snapshot × List (List Char))) :
    (writeRows limits rows).text =
      Csv.table Lifespan.delimiter (rowsWithin limits rows) := by
  induction rows with
  | nil => rfl
  | cons x rows ih =>
    rw [writeRows, rowsWithin, List.takeWhile_cons]
    cases rowStop limits x.1 with
    | none => exact congrArg (Csv.row Lifespan.delimiter x.2 ++ ·) ih
    | some fault => rfl

theorem stop_writeRows (rows : List (Snapshot × List (List Char))) :
    (writeRows limits rows).stop = rows.findSome? fun x => rowStop limits x.1 := by
  induction rows with
  | nil => rfl
  | cons x rows ih =>
    rw [writeRows, List.findSome?_cons]
    cases rowStop limits x.1 with
    | none => exact ih
    | some fault => rfl

section Table

variable (limits) (l : Lifespan)

/-- The header of a table is always written, and the rows above the first one that cannot be. -/
theorem text_writeTable : (writeTable limits l).text =
    Csv.table Lifespan.delimiter (Lifespan.header.map String.toList ::
      rowsWithin limits (l.snapshots.zip l.snapshotRows)) :=
  congrArg (Csv.row Lifespan.delimiter (Lifespan.header.map String.toList) ++ ·)
    (text_writeRows _)

theorem stop_writeTable :
    (writeTable limits l).stop = l.snapshots.findSome? (rowStop limits) := by
  have snapshots : (l.snapshots.zip l.snapshotRows).map Prod.fst = l.snapshots :=
    List.map_fst_zip (Nat.le_of_eq l.length_snapshotRows.symm)
  calc (writeTable limits l).stop
    _ = (l.snapshots.zip l.snapshotRows).findSome? fun x => rowStop limits x.1 :=
        stop_writeRows _
    _ = ((l.snapshots.zip l.snapshotRows).map Prod.fst).findSome? (rowStop limits) :=
        by rw [List.findSome?_map]; rfl
    _ = l.snapshots.findSome? (rowStop limits) := by rw [snapshots]

variable {limits l}

theorem text_writeTable_eq (clear : ∀ s ∈ l.snapshots, rowStop limits s = none) :
    (writeTable limits l).text = l.table := by
  have rows : (l.snapshots.zip l.snapshotRows).map Prod.snd = l.snapshotRows :=
    List.map_snd_zip (Nat.le_of_eq l.length_snapshotRows)
  rw [text_writeTable, rowsWithin, List.takeWhile_eq_self_iff.mpr, rows]
  · rfl
  · intro x hx
    rw [clear x.1 (List.of_mem_zip hx).1, Option.isNone_none]

end Table

/-- Where a text can be written, saving a lifespan leaves the header and the rows above the
first one that cannot be written in the file, whatever the limits are. -/
theorem read_rows {path : String} {a : Archive} (limits : Json.Limits) (l : Lifespan)
    (writable : (writeText path []).answer a = .ok ()) :
    ((saveTable limits path l).after a).disk.read path =
      .ok (Encoding.Utf8.encode (Csv.table Lifespan.delimiter (Lifespan.header.map String.toList ::
        rowsWithin limits (l.snapshots.zip l.snapshotRows)))) := by
  rw [← text_writeTable]
  exact read_save writable _ _ _

/-- The file of a table is read as the header and rows that tell the lifespan; within the
limits, saving it fails only where no text can be written. -/
theorem read_saveTable (limits : Json.Limits) (path : String) (a : Archive) (l : Lifespan)
    (plain : ∀ s ∈ l.snapshots, s.metadata.isPlain = true)
    (fits : ∀ s ∈ l.snapshots, ∀ v ∈ [.int s.ordinal, .int s.changes, s.metadata,
      .arr (s.locations.map Location.toJson)], v.needs ≤ limits) :
    (saveTable limits path l).answer a = (writeText path []).answer a ∧
    ((saveTable limits path l).answer a = .ok () →
      ∃ bytes text rows, ((saveTable limits path l).after a).disk.read path = .ok bytes ∧
        File.decoded .utf8 bytes = .ok text ∧
        Csv.read ';' text = Lifespan.header.map String.toList :: rows ∧
        l.Tells limits rows) := by
  have clear : ∀ s ∈ l.snapshots, rowStop limits s = none :=
    fun s hs => rowStop_eq_none.mpr (fits s hs)
  have ends := (stop_writeTable limits l).trans (List.findSome?_eq_none_iff.mpr clear)
  refine ⟨answer_save ends _ _, fun saved => ?_⟩
  have file := read_save (writable_of_save saved) .tableNotSaved (.savedTable path)
    (writeTable limits l)
  rw [text_writeTable_eq clear] at file
  refine ⟨_, l.table, _, file, File.decoded_encode _, ?_,
    Lifespan.tells_rows plain fun s hs => ?_⟩
  · refine Csv.read_table (by decide) (by decide) fun row h single => ?_
    have six := Lifespan.length_of_mem_rows h
    rw [single] at six
    cases six
  · have all := fits s hs
    simp only [List.forall_mem_cons] at all
    exact ⟨all.2.2.1, all.2.2.2.1⟩

/-- Revisions and paths with semicolons, quotes and line ends. -/
theorem read_saveTable_quoted :
    ∃ bytes text rows,
      ((saveTable .standard "a.csv" quotedLifespan).after .empty).disk.read "a.csv" = .ok bytes ∧
        File.decoded .utf8 bytes = .ok text ∧
        Csv.read ';' text = Lifespan.header.map String.toList :: rows ∧
        quotedLifespan.Tells .standard rows := by
  have writable : (writeText "a.csv" []).answer .empty = .ok () := by rfl
  obtain ⟨answer, told⟩ := read_saveTable .standard "a.csv" .empty quotedLifespan (by decide)
    (by decide)
  exact told (answer.trans writable)

end Export
end Lineage
