/-
# What is saved is loaded

A plain value that is saved within limits that it needs no more of is loaded as it was
(`loadJson_saveJson`). Saving it fails only where no text at all could be written to the path.
Lifespans are saved as the list of their records, which are plain as soon as the metadata
are, and so that list is loaded.

Key theorems: `Lifespan.isPlain_toJson`, `Export.answer_saveJson`,
`Export.answer_loadJson_after`, `Export.loadJson_saveJson`.
-/
import Lineage.Proofs.Export.Writing
import Lineage.Proofs.Json.Writing

namespace Lineage

/-! ### Records without floats -/

namespace Json

theorem arePlain_iff {vs : List Json} : arePlain vs = true ↔ ∀ v ∈ vs, v.isPlain = true := by
  induction vs with
  | nil => simp [arePlain]
  | cons v vs ih => simp [arePlain, ih]

theorem isPlain_arr_map {α : Type} {f : α → Json} {xs : List α}
    (h : ∀ x ∈ xs, (f x).isPlain = true) : (Json.arr (xs.map f)).isPlain = true := by
  rw [isPlain, arePlain_iff]
  intro v hv
  obtain ⟨x, hx, rfl⟩ := List.mem_map.mp hv
  exact h x hx

end Json

theorem Location.isPlain_toJson (l : Location) : l.toJson.isPlain = true := by
  simp only [toJson, Corner.members, Json.isPlain, Json.holdPlain, List.cons_append,
    List.nil_append, List.map_cons, List.map_nil, Bool.and_true]
  decide

theorem Snapshot.isPlain_locations (s : Snapshot) :
    (Json.arr (s.locations.map Location.toJson)).isPlain = true :=
  Json.isPlain_arr_map fun l _ => l.isPlain_toJson

/-- The record of a snapshot with plain metadata is plain. -/
theorem Snapshot.isPlain_toJson {s : Snapshot} (h : s.metadata.isPlain = true) :
    s.toJson.isPlain = true := by
  have names : (["ordinal", "revision_id", "locations", "num_changes", "metadata"] :
      List String).Nodup := by decide
  have locations := s.isPlain_locations
  simp only [toJson, Json.isPlain, Json.holdPlain, List.map_cons, List.map_nil, Bool.and_true,
    Bool.true_and, Bool.and_eq_true, decide_eq_true_eq]
  exact ⟨names, locations, h⟩

theorem Lifespan.isPlain_toJson {l : Lifespan} (h : ∀ s ∈ l.snapshots, s.metadata.isPlain = true) :
    l.toJson.isPlain = true := by
  have names : (["num_changes", "entities"] : List String).Nodup := by decide
  have snapshots := Json.isPlain_arr_map fun s hs => Snapshot.isPlain_toJson (h s hs)
  simp only [toJson, Json.isPlain, Json.holdPlain, List.map_cons, List.map_nil, Bool.and_true,
    Bool.true_and, Bool.and_eq_true, decide_eq_true_eq]
  exact ⟨names, snapshots⟩

namespace Export

/-! ### Saving and loading -/

variable {limits : Json.Limits} {path : String} {a : Archive}

theorem answer_loadJson {v : Json} (plain : v.isPlain = true) (fits : v.needs ≤ limits)
    (file : a.disk.read path = .ok (Encoding.Utf8.encode (v.print .opened))) :
    (loadJson limits path).answer a = .ok v := by
  have text := answer_readText file
  rw [plainLineEnds_eq_self (Json.not_mem_print .opened plain)] at text
  unfold loadJson
  rw [Work.answer_telling, Work.answer_bind_ok text, Json.parse_print .opened plain fits]
  rfl

theorem answer_saveJson {v : Json} (fits : v.needs ≤ limits) :
    (saveJson limits path v).answer a = (writeText path []).answer a :=
  answer_save (Json.stop_write.mpr fits) _ _

/-- Where a text can be written, saving a value leaves a beginning of its text in the file,
whatever the limits are, and all of it if the value is saved. -/
theorem read_saveJson (limits : Json.Limits) (v : Json)
    (writable : (writeText path []).answer a = .ok ()) :
    ∃ text, ((saveJson limits path v).after a).disk.read path =
        .ok (Encoding.Utf8.encode text) ∧ text <+: v.print .opened ∧
      (v.needs ≤ limits → text = v.print .opened) :=
  ⟨_, read_save writable _ _ _, (Json.begins_write limits .opened v).starts, Json.text_write⟩

/-- A value that was saved is loaded. -/
theorem answer_loadJson_after {v : Json} (plain : v.isPlain = true) (fits : v.needs ≤ limits)
    (saved : (saveJson limits path v).answer a = .ok ()) :
    (loadJson limits path).answer ((saveJson limits path v).after a) = .ok v := by
  obtain ⟨_, file, -, whole⟩ := read_saveJson limits v (writable_of_save saved)
  rw [whole fits] at file
  exact answer_loadJson plain fits file

/-- A plain value that is saved is loaded again, and so are the records of lifespans with plain
metadata; within the limits, saving fails only where no text can be written. -/
theorem loadJson_saveJson (limits : Json.Limits) (path : String) (a : Archive) :
    (∀ v : Json, v.isPlain = true → v.needs ≤ limits →
      (saveJson limits path v).answer a = (writeText path []).answer a ∧
      ((saveJson limits path v).answer a = .ok () →
        (loadJson limits path).answer ((saveJson limits path v).after a) = .ok v)) ∧
    (∀ ls : List Lifespan, (∀ l ∈ ls, ∀ s ∈ l.snapshots, s.metadata.isPlain = true) →
      (Json.arr (ls.map Lifespan.toJson)).needs ≤ limits →
      (saveLifespans limits path ls).answer a = (writeText path []).answer a ∧
      ((saveLifespans limits path ls).answer a = .ok () →
        (loadJson limits path).answer ((saveLifespans limits path ls).after a) =
          .ok (.arr (ls.map Lifespan.toJson)))) := by
  refine ⟨fun v plain fits => ⟨answer_saveJson fits, answer_loadJson_after plain fits⟩,
    fun ls plain fits => ⟨answer_saveJson fits, answer_loadJson_after ?_ fits⟩⟩
  exact Json.isPlain_arr_map fun l hl => Lifespan.isPlain_toJson (plain l hl)

/-- The snapshot after some others, at one location of two lines. -/
def sample (n : Nat) (revision path : String) (metadata : Json) : Snapshot where
  ordinal := 1 + n
  revision := revision
  locations := [⟨path, ⟨1 + n, 1 + n, n, by omega, by omega, Int.natCast_nonneg n⟩,
    ⟨2 + n, 1 + n, 4 + n, by omega, by omega, by omega⟩⟩]
  changes := n
  metadata := metadata
  one_le_ordinal := by omega
  changes_nonneg := Int.natCast_nonneg n
  locations_ne_nil := List.cons_ne_nil _ _

/-- A lifespan of two snapshots, in revisions whose names hold what sets fields apart. -/
def quotedLifespan : Lifespan where
  first := sample 0 "r;1" "é.py" (.str "a \"clone\"\r\n")
  later := [sample 1 "r\r\n2" "\";" .null]

/-- A nested value and a lifespan, in a directory that is made on the way. -/
theorem loadJson_saveJson_nested :
    (loadJson .standard "out/data.json").answer ((saveJson .standard "out/data.json"
      (.obj [("name", .str "Foo\r\n\"é"), ("lines", .arr [.int 1, .int (-2)])])).after .empty) =
        .ok (.obj [("name", .str "Foo\r\n\"é"), ("lines", .arr [.int 1, .int (-2)])]) ∧
    (loadJson .standard "out/data.json").answer ((saveLifespans .standard "out/data.json"
      [quotedLifespan]).after .empty) = .ok (.arr [quotedLifespan.toJson]) := by
  have writable : (writeText "out/data.json" []).answer .empty = .ok () := by rfl
  have plain : ∀ l ∈ [quotedLifespan], ∀ s ∈ l.snapshots, s.metadata.isPlain = true := by decide
  have holds := loadJson_saveJson .standard "out/data.json" .empty
  obtain ⟨saved, loaded⟩ := holds.1
    (.obj [("name", .str "Foo\r\n\"é"), ("lines", .arr [.int 1, .int (-2)])]) (by decide)
    (by decide)
  obtain ⟨savedAll, loadedAll⟩ := holds.2 [quotedLifespan] plain (by decide)
  exact ⟨loaded (saved.trans writable), loadedAll (savedAll.trans writable)⟩

end Export
end Lineage
