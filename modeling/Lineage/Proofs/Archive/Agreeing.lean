/-
# Pieces of work that agree

Two pieces of work of one session agree if they fail together, and if what they answer
otherwise is in a given relation. Which fault it is does not count, nor what is told on the
way. Work in parts agrees part by part, if the second parts agree after all that the first
ones may answer there (`Work.Agrees.bind`); where a part is the same on both sides, so is
what it answers (`Work.Agrees.bind_same`).

Key definitions: `Work.Agrees`.
Key theorems: `Work.Agrees.bind`, `Work.Agrees.together`.
-/
import Lineage.Proofs.Archive.Consulting

namespace Lineage

variable {α α' β β' : Type} {R : α → α' → Prop} {S : β → β' → Prop} {o : Scope} {base : Archive}

/-- Two pieces of work of a session that fail together, or answer what is in a relation. -/
structure Work.Agrees (w : Work α) (w' : Work α') (o : Scope) (base : Archive)
    (R : α → α' → Prop) : Prop where
  consults : w.Consults o base
  consults' : w'.Consults o base
  answers : Option.Rel R (w.answer base).toOption (w'.answer base).toOption

namespace Work.Agrees

theorem pure {x : α} {y : α'} (h : R x y) :
    Agrees (Pure.pure x : Work α) (Pure.pure y : Work α') o base R :=
  ⟨(Consults.modular o base).pure x, (Consults.modular o base).pure y, .some h⟩

theorem throw (e e' : Fault) :
    Agrees (MonadExcept.throw e : Work α) (MonadExcept.throw e' : Work α') o base R :=
  ⟨(Consults.modular o base).throw e, (Consults.modular o base).throw e', .none⟩

/-- It does not count what is told, as long as it is no warning. -/
theorem note {n n' : Notice} (quiet : n.level ≠ .warning) (quiet' : n'.level ≠ .warning) :
    (Work.note n).Agrees (Work.note n') o base Eq :=
  ⟨(Consults.modular o base).note n quiet, (Consults.modular o base).note n' quiet', .some rfl⟩

theorem lift {e : Except Fault α} {e' : Except Fault α'} (h : Option.Rel R e.toOption e'.toOption) :
    Agrees (liftM e : Work α) (liftM e' : Work α') o base R where
  consults := (Consults.modular o base).lift e
  consults' := (Consults.modular o base).lift e'
  answers := by rwa [answer_lift, answer_lift]

section Answers

variable {w : Work α} {w' : Work α'} (h : w.Agrees w' o base R)
include h

/-- Either both fail, or both answer something. -/
theorem cases_answer :
    (∃ e e', w.answer base = .error e ∧ w'.answer base = .error e') ∨
      ∃ x y, w.answer base = .ok x ∧ w'.answer base = .ok y ∧ R x y := by
  have same := h.answers
  cases hx : w.answer base with
  | error e =>
    cases hy : w'.answer base with
    | error e' => exact .inl ⟨e, e', rfl, rfl⟩
    | ok y =>
      rw [hx, hy] at same
      cases same
  | ok x =>
    cases hy : w'.answer base with
    | error e' =>
      rw [hx, hy] at same
      cases same
    | ok y =>
      rw [hx, hy] at same
      cases same with
      | some related => exact .inr ⟨x, y, rfl, rfl, related⟩

/-- Work that agrees does so in any two archives of the session, whatever they have been told:
one piece succeeds if and only if the other one does, and their results are in the relation. -/
theorem together (free : w.IgnoresLog) (free' : w'.IgnoresLog) {b b' : Archive}
    (onward : base.Onward o (b.relog base.log)) (onward' : base.Onward o (b'.relog base.log)) :
    ((∃ x, w.answer b = .ok x) ↔ ∃ y, w'.answer b' = .ok y) ∧
      ∀ x y, w.answer b = .ok x → w'.answer b' = .ok y → R x y := by
  rw [← free.answer_relog b base.log, h.consults.answer _ onward,
    ← free'.answer_relog b' base.log, h.consults'.answer _ onward']
  obtain ⟨e, e', hx, hy⟩ | ⟨x, y, hx, hy, related⟩ := h.cases_answer
  · rw [hx, hy]
    exact ⟨by simp, fun _ _ success => by cases success⟩
  · rw [hx, hy]
    refine ⟨by simp, fun x' y' success success' => ?_⟩
    rwa [← Except.ok.inj success, ← Except.ok.inj success']

/-- Parts that agree make work that agrees. The second parts may rely on what the first ones
answer. -/
theorem bind {f : α → Work β} {f' : α' → Work β'}
    (hf : ∀ x y, w.answer base = .ok x → w'.answer base = .ok y → R x y →
      (f x).Agrees (f' y) o base S) : (w >>= f).Agrees (w' >>= f') o base S := by
  obtain ⟨e, e', hx, hy⟩ | ⟨x, y, hx, hy, related⟩ := h.cases_answer
  · refine ⟨h.consults.bind fun x hx' => ?_, h.consults'.bind fun y hy' => ?_, ?_⟩
    · cases hx.symm.trans hx'
    · cases hy.symm.trans hy'
    · rw [answer_bind_error hx, answer_bind_error hy]
      exact .none
  · have next := hf x y hx hy related
    refine ⟨h.consults.bind fun x' hx' => ?_, h.consults'.bind fun y' hy' => ?_, ?_⟩
    · cases hx.symm.trans hx'
      exact next.consults
    · cases hy.symm.trans hy'
      exact next.consults'
    · rw [h.consults.answer_bind next.consults hx, h.consults'.answer_bind next.consults' hy]
      exact next.answers

end Answers

theorem same {w : Work α} (h : w.Consults o base) : w.Agrees w o base Eq := by
  refine ⟨h, h, ?_⟩
  cases (w.answer base).toOption with
  | none => exact .none
  | some x => exact .some rfl

theorem bind_same {w : Work α} {f : α → Work β} {f' : α → Work β'} (h : w.Consults o base)
    (hf : ∀ x, w.answer base = .ok x → (f x).Agrees (f' x) o base S) :
    (w >>= f).Agrees (w >>= f') o base S := by
  apply (same h).bind
  rintro x _ hx - rfl
  exact hf x hx

theorem bind_note {n n' : Notice} (quiet : n.level ≠ .warning) (quiet' : n'.level ≠ .warning)
    {f : Unit → Work β} {f' : Unit → Work β'} (hf : (f ()).Agrees (f' ()) o base S) :
    (Work.note n >>= f).Agrees (Work.note n' >>= f') o base S :=
  (note quiet quiet').bind fun _ _ _ _ _ => hf

end Work.Agrees
end Lineage
