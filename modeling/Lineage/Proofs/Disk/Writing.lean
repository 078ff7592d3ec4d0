/-
# What is written is read

A file that could be written is read again with the bytes that were written to it
(`read_write`). The directories on the way to it are followed as before: writing puts a file
under a name where no directory was, and a way that leads to a directory does not go through
files (`follow_set`).

Key theorems: `Disk.exists_of_write`, `Disk.follow_set`, `Disk.follow_append`, `Disk.read_write`.
-/
import Lineage.Disk

namespace Lineage

namespace Path

theorem parts_ne_nil (path : List Char) : parts path ≠ [] := by
  cases path with
  | nil => exact List.cons_ne_nil _ _
  | cons c rest =>
    unfold parts
    split
    · exact List.cons_ne_nil _ _
    · split <;> exact List.cons_ne_nil _ _

theorem withoutEnd_eq_self {path : List Char} (h : endsInSlash path = false) :
    withoutEnd path = path := by
  rw [endsInSlash, List.getLast?_eq_head?_reverse] at h
  have stays : path.reverse.dropWhile (· == '/') = path.reverse := by
    cases hp : path.reverse with
    | nil => rfl
    | cons c rest =>
      rw [hp] at h
      exact List.dropWhile_cons_of_neg (by simpa using h)
  rw [withoutEnd, stays, List.reverse_reverse]

end Path

namespace Disk

variable {d d' : Disk} {path : String} {bytes : List UInt8}

theorem eq_of_partsOf {parts : List (List Char)} (h : partsOf path = .ok parts) :
    parts = Path.parts path.toList := by
  unfold partsOf at h
  split at h
  · cases h
  · split at h
    · cases h
    · split at h
      · cases h
      · exact (Except.ok.inj h).symm

theorem exists_of_lastStep {way : Way} {name : List Char}
    (h : d.lastStep path = .ok (way, name)) :
    partsOf path = .ok (Path.parts path.toList) ∧
      d.follow path (.directory []) (Path.parts (Path.withoutEnd path.toList)).dropLast =
        .ok (.directory way) ∧
      (Path.parts (Path.withoutEnd path.toList)).getLast?.getD [] = name := by
  unfold lastStep at h
  cases parts : partsOf path with
  | error e => rw [parts] at h; cases h
  | ok parts' =>
    rw [parts] at h
    rw [← eq_of_partsOf parts]
    cases above : d.follow path (.directory [])
        (Path.parts (Path.withoutEnd path.toList)).dropLast with
    | error e => simp [above, bind, Except.bind] at h
    | ok target =>
      cases target with
      | directory way' =>
        simp only [above, bind, Except.bind, pure, Except.pure, Except.ok.injEq,
          Prod.mk.injEq] at h
        exact ⟨rfl, by rw [h.1], h.2⟩
      | file _ => simp [above, bind, Except.bind] at h
      | nothing => simp [above, bind, Except.bind] at h

/-- What is written goes under a name that no directory has. -/
theorem exists_of_write (h : d.write path bytes = .ok d') :
    ∃ way name, d.lastStep path = .ok (way, name) ∧ Path.endsInSlash path.toList = false ∧
      isName name = true ∧ isTooLong name = false ∧
      (∀ number, d.entry way.last name ≠ some (.directory number)) ∧
      d' = d.set way.last name (some (.file bytes)) := by
  unfold write at h
  cases last : d.lastStep path with
  | error e => rw [last] at h; cases h
  | ok step =>
    obtain ⟨way, name⟩ := step
    rw [last] at h
    simp only [bind, Except.bind] at h
    split at h
    · cases h
    next named =>
      simp only [Bool.or_eq_true, Bool.not_eq_true', not_or, Bool.not_eq_true,
        Bool.not_eq_false] at named
      split at h
      · cases h
      next short =>
        split at h
        · cases h
        next free =>
          refine ⟨way, name, rfl, named.1, named.2, by simpa using short, free, ?_⟩
          exact (Except.ok.inj h).symm

theorem exists_of_follow_cons {start way : Way} {part : List Char} {rest : List (List Char)}
    (h : d.follow path (.directory start) (part :: rest) = .ok (.directory way)) :
    isTooLong part = false ∧ ∃ onward, d.step start part = .directory onward ∧
      d.follow path (.directory onward) rest = .ok (.directory way) := by
  unfold follow at h
  split at h
  · cases h
  next short =>
    refine ⟨by simpa using short, ?_⟩
    cases next : d.step start part with
    | directory onward => exact ⟨onward, rfl, by rwa [next] at h⟩
    | file _ => rw [next] at h; cases rest <;> cases h
    | nothing => rw [next] at h; cases rest <;> cases h

section Set

variable {directory : Nat} {name : List Char}
  (free : ∀ number, d.entry directory name ≠ some (.directory number))
include free

/-- A step to a directory leads there still when a file is put where no directory was. -/
theorem step_set {start onward : Way} {part : List Char}
    (h : d.step start part = .directory onward) :
    (d.set directory name (some (.file bytes))).step start part = .directory onward := by
  unfold step at h ⊢
  split
  next named =>
    rw [if_pos named] at h
    have other : ¬ (start.last = directory ∧ part = name) := by
      rintro ⟨rfl, rfl⟩
      unfold under at h
      split at h
      · cases h
      · cases h
      next number taken => exact free number taken
    unfold under at h ⊢
    rw [entry_set, if_neg other]
    exact h
  next unnamed =>
    rw [if_neg unnamed] at h
    exact h

theorem follow_set {start way : Way} {parts : List (List Char)}
    (h : d.follow path (.directory start) parts = .ok (.directory way)) :
    (d.set directory name (some (.file bytes))).follow path (.directory start) parts =
      .ok (.directory way) := by
  induction parts generalizing start with
  | nil => exact h
  | cons part rest ih =>
    obtain ⟨short, onward, next, h⟩ := exists_of_follow_cons h
    rw [follow, if_neg (by simp [short]), step_set free next]
    exact ih h

end Set

/-- A last part is looked up in the directory that the parts before it lead to. -/
theorem follow_append {start way : Way} {parts : List (List Char)}
    (h : d.follow path (.directory start) parts = .ok (.directory way)) (name : List Char) :
    d.follow path (.directory start) (parts ++ [name]) =
      d.follow path (.directory way) [name] := by
  induction parts generalizing start with
  | nil => cases h; rfl
  | cons part rest ih =>
    obtain ⟨short, onward, next, h⟩ := exists_of_follow_cons h
    rw [List.cons_append, follow, if_neg (by simp [short]), next]
    exact ih h

/-- What was written to a file is read from it. -/
theorem read_write (h : d.write path bytes = .ok d') : d'.read path = .ok bytes := by
  obtain ⟨way, name, last, slash, named, short, free, rfl⟩ := exists_of_write h
  obtain ⟨whole, above, final⟩ := exists_of_lastStep last
  rw [Path.withoutEnd_eq_self slash] at above final
  have split : Path.parts path.toList = (Path.parts path.toList).dropLast ++ [name] := by
    rw [← final, List.getLast?_eq_some_getLast (Path.parts_ne_nil _), Option.getD_some,
      List.dropLast_concat_getLast]
  have reached : (d.set way.last name (some (.file bytes))).target path = .ok (.file bytes) := by
    rw [target, whole, split]
    show follow _ path (.directory []) _ = _
    rw [follow_append (follow_set free above), follow, short, if_neg Bool.false_ne_true,
      step, if_pos named, under, entry_set, if_pos ⟨rfl, rfl⟩]
    rfl
  rw [read, reached]
  rfl

end Disk
end Lineage
