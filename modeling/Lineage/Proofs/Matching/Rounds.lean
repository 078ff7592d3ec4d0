/-
# How a round comes out

A round is fair: everyone who got something got something suitable, and whatever
they would rather have had went to someone whose turn came before theirs; those
who got nothing found all that suits them gone in the same way. This holds for
every way to pick that takes the best of what suits, and so for taking the first
one and for taking the last one.

Key definitions: `Round.Picks`, `Round.Fair`.
Key theorems: `Round.picks_pickFirst`, `Round.picks_pickLast`, `Round.play_fair`.
-/
import Lineage.Matching.Round

namespace Lineage
namespace Round

variable {α β : Type}

/-! ### One turn -/

/-- A way to pick takes the best of what suits, and nothing only if nothing does. -/
structure Picks (place : β → Nat) (suits : β → Bool) (better : β → β → Prop)
    (pick : List β → Option (β × List β)) : Prop where
  nothing : ∀ {left}, pick left = none → ∀ b ∈ left, suits b = false
  something : ∀ {left b rest}, left.Pairwise (fun c d => place c < place d) →
    pick left = some (b, rest) →
      left.Perm (b :: rest) ∧ rest.Sublist left ∧ suits b = true ∧
        ∀ c ∈ left, suits c = true → ¬ better c b

theorem pickFirst_some {suits : β → Bool} : ∀ {left : List β} {b : β} {rest : List β},
    pickFirst suits left = some (b, rest) →
      ∃ l r, left = l ++ b :: r ∧ rest = l ++ r ∧ suits b = true ∧ ∀ c ∈ l, suits c = false
  | [], _, _, h => by cases h
  | c :: cs, b, rest, h => by
    unfold pickFirst at h
    by_cases hc : suits c = true
    · rw [if_pos hc] at h
      obtain ⟨rfl, rfl⟩ := Prod.mk.inj (Option.some.inj h)
      exact ⟨[], cs, rfl, rfl, hc, by simp⟩
    · rw [if_neg hc] at h
      obtain ⟨⟨d, others⟩, hd, he⟩ := Option.map_eq_some_iff.mp h
      obtain ⟨rfl, rfl⟩ := Prod.mk.inj he
      obtain ⟨l, r, rfl, rfl, hb, hl⟩ := pickFirst_some hd
      refine ⟨c :: l, r, rfl, rfl, hb, fun x hx => ?_⟩
      rcases List.mem_cons.mp hx with rfl | hx
      · exact Bool.eq_false_iff.mpr hc
      · exact hl x hx

theorem pickFirst_none {suits : β → Bool} : ∀ {left : List β},
    pickFirst suits left = none → ∀ b ∈ left, suits b = false
  | [], _ => by simp
  | c :: cs, h => by
    unfold pickFirst at h
    by_cases hc : suits c = true
    · rw [if_pos hc] at h
      cases h
    · rw [if_neg hc] at h
      intro b hb
      rcases List.mem_cons.mp hb with rfl | hb
      · exact Bool.eq_false_iff.mpr hc
      · exact pickFirst_none (Option.map_eq_none_iff.mp h) b hb

theorem pickLast_none {suits : β → Bool} : ∀ {left : List β},
    pickLast suits left = none → ∀ b ∈ left, suits b = false
  | [], _ => by simp
  | c :: cs, h => by
    unfold pickLast at h
    cases hp : pickLast suits cs with
    | some found =>
      rw [hp] at h
      cases h
    | none =>
      rw [hp] at h
      by_cases hc : suits c = true
      · simp only [if_pos hc] at h
        cases h
      · intro b hb
        rcases List.mem_cons.mp hb with rfl | hb
        · exact Bool.eq_false_iff.mpr hc
        · exact pickLast_none hp b hb

theorem pickLast_some {suits : β → Bool} : ∀ {left : List β} {b : β} {rest : List β},
    pickLast suits left = some (b, rest) →
      ∃ l r, left = l ++ b :: r ∧ rest = l ++ r ∧ suits b = true ∧ ∀ c ∈ r, suits c = false
  | [], _, _, h => by cases h
  | c :: cs, b, rest, h => by
    unfold pickLast at h
    cases hp : pickLast suits cs with
    | some found =>
      rw [hp] at h
      obtain ⟨d, others⟩ := found
      obtain ⟨rfl, rfl⟩ := Prod.mk.inj (Option.some.inj h)
      obtain ⟨l, r, rfl, rfl, hb, hr⟩ := pickLast_some hp
      exact ⟨c :: l, r, rfl, rfl, hb, hr⟩
    | none =>
      rw [hp] at h
      by_cases hc : suits c = true
      · simp only [if_pos hc] at h
        obtain ⟨rfl, rfl⟩ := Prod.mk.inj (Option.some.inj h)
        exact ⟨[], cs, rfl, rfl, hc, pickLast_none hp⟩
      · simp only [if_neg hc] at h
        cases h

theorem picks_pickFirst (place : β → Nat) (suits : β → Bool) :
    Picks place suits (fun c b => place c < place b) (pickFirst suits) where
  nothing := pickFirst_none
  something sorted h := by
    obtain ⟨l, r, rfl, rfl, hb, hl⟩ := pickFirst_some h
    obtain ⟨-, behind, -⟩ := List.pairwise_append.mp sorted
    refine ⟨List.perm_middle, (List.sublist_cons_self _ r).append_left l, hb,
      fun c hc suited lower => ?_⟩
    rcases List.mem_append.mp hc with hc | hc
    · rw [hl c hc] at suited
      cases suited
    · rcases List.mem_cons.mp hc with rfl | hc
      · exact Nat.lt_irrefl _ lower
      · exact Nat.lt_asymm lower ((List.pairwise_cons.mp behind).1 c hc)

theorem picks_pickLast (place : β → Nat) (suits : β → Bool) :
    Picks place suits (fun c b => place b < place c) (pickLast suits) where
  nothing := pickLast_none
  something sorted h := by
    obtain ⟨l, r, rfl, rfl, hb, hr⟩ := pickLast_some h
    obtain ⟨-, -, before⟩ := List.pairwise_append.mp sorted
    refine ⟨List.perm_middle, (List.sublist_cons_self _ r).append_left l, hb,
      fun c hc suited higher => ?_⟩
    rcases List.mem_append.mp hc with hc | hc
    · exact Nat.lt_asymm higher (before c hc _ List.mem_cons_self)
    · rcases List.mem_cons.mp hc with rfl | hc
      · exact Nat.lt_irrefl _ higher
      · rw [hr c hc] at suited
        cases suited

/-! ### All turns -/

/-- How a round comes out in which `turn` says when someone picks. -/
structure Fair (turn : α → Nat) (suits : α → β → Bool) (better : β → β → Prop)
    (pickers : List α) (items : List β) (r : Round α β) : Prop where
  pickers_perm : (r.pairs.map Prod.fst ++ r.unpaired).Perm pickers
  unpaired_sublist : r.unpaired.Sublist pickers
  items_perm : (r.pairs.map Prod.snd ++ r.left).Perm items
  left_sublist : r.left.Sublist items
  suited : ∀ a b, (a, b) ∈ r.pairs → suits a b = true
  taken : ∀ a b, (a, b) ∈ r.pairs → ∀ c ∈ items, suits a c = true → better c b →
    ∃ a', (a', c) ∈ r.pairs ∧ turn a' < turn a
  gone : ∀ a ∈ r.unpaired, ∀ c ∈ items, suits a c = true →
    ∃ a', (a', c) ∈ r.pairs ∧ turn a' < turn a

namespace Fair

variable {turn : α → Nat} {suits : α → β → Bool} {better : β → β → Prop} {pickers : List α}
  {items : List β} {r : Round α β}

theorem mem_pickers (h : Fair turn suits better pickers items r) {a : α} {b : β}
    (hp : (a, b) ∈ r.pairs) : a ∈ pickers :=
  h.pickers_perm.subset (List.mem_append_left _ (List.mem_map_of_mem (f := Prod.fst) hp))

theorem mem_items (h : Fair turn suits better pickers items r) {a : α} {b : β}
    (hp : (a, b) ∈ r.pairs) : b ∈ items :=
  h.items_perm.subset (List.mem_append_left _ (List.mem_map_of_mem (f := Prod.snd) hp))

theorem paired_or_unpaired (h : Fair turn suits better pickers items r) {a : α}
    (ha : a ∈ pickers) : (∃ b, (a, b) ∈ r.pairs) ∨ a ∈ r.unpaired := by
  rcases List.mem_append.mp (h.pickers_perm.symm.subset ha) with paired | unpaired
  · obtain ⟨⟨a, b⟩, hp, rfl⟩ := List.mem_map.mp paired
    exact .inl ⟨b, hp⟩
  · exact .inr unpaired

theorem paired_or_left (h : Fair turn suits better pickers items r) {b : β} (hb : b ∈ items) :
    (∃ a, (a, b) ∈ r.pairs) ∨ b ∈ r.left := by
  rcases List.mem_append.mp (h.items_perm.symm.subset hb) with paired | left
  · obtain ⟨⟨a, b⟩, hp, rfl⟩ := List.mem_map.mp paired
    exact .inl ⟨a, hp⟩
  · exact .inr left

theorem nil (items : List β) : Fair turn suits better [] items ⟨[], [], items⟩ where
  pickers_perm := .refl _
  unpaired_sublist := .refl _
  items_perm := .refl _
  left_sublist := .refl _
  suited a b h := by cases h
  taken a b h := by cases h
  gone a h := by cases h

variable {a : α} {as : List α}

theorem cons_unpaired (rest : Fair turn suits better as items r)
    (nothing : ∀ c ∈ items, suits a c = false) :
    Fair turn suits better (a :: as) items ⟨r.pairs, a :: r.unpaired, r.left⟩ where
  pickers_perm := List.perm_middle.trans (rest.pickers_perm.cons a)
  unpaired_sublist := rest.unpaired_sublist.cons_cons a
  items_perm := rest.items_perm
  left_sublist := rest.left_sublist
  suited := rest.suited
  taken := rest.taken
  gone a' ha c hc suited := by
    rcases List.mem_cons.mp ha with rfl | ha
    · rw [nothing c hc] at suited
      cases suited
    · exact rest.gone a' ha c hc suited

/-- A round stays fair with a first picker who gets the best of what suits. -/
theorem cons_paired {b : β} {others : List β} (rest : Fair turn suits better as others r)
    (first : ∀ a' ∈ as, turn a < turn a') (perm : items.Perm (b :: others))
    (sub : others.Sublist items) (suited : suits a b = true)
    (best : ∀ c ∈ items, suits a c = true → ¬ better c b) :
    Fair turn suits better (a :: as) items ⟨(a, b) :: r.pairs, r.unpaired, r.left⟩ where
  pickers_perm := rest.pickers_perm.cons a
  unpaired_sublist := rest.unpaired_sublist.cons a
  items_perm := (rest.items_perm.cons b).trans perm.symm
  left_sublist := rest.left_sublist.trans sub
  suited a' c h := by
    rcases List.mem_cons.mp h with own | other
    · obtain ⟨rfl, rfl⟩ := Prod.mk.inj own
      exact suited
    · exact rest.suited a' c other
  taken a' c h d hd suits_d better_d := by
    rcases List.mem_cons.mp h with own | other
    · obtain ⟨rfl, rfl⟩ := Prod.mk.inj own
      exact absurd better_d (best d hd suits_d)
    · rcases List.mem_cons.mp (perm.subset hd) with rfl | hd
      · exact ⟨a, List.mem_cons_self, first a' (rest.mem_pickers other)⟩
      · obtain ⟨e, he, earlier⟩ := rest.taken a' c other d hd suits_d better_d
        exact ⟨e, List.mem_cons_of_mem _ he, earlier⟩
  gone a' ha d hd suits_d := by
    rcases List.mem_cons.mp (perm.subset hd) with rfl | hd
    · exact ⟨a, List.mem_cons_self, first a' (rest.unpaired_sublist.subset ha)⟩
    · obtain ⟨e, he, earlier⟩ := rest.gone a' ha d hd suits_d
      exact ⟨e, List.mem_cons_of_mem _ he, earlier⟩

end Fair

/-- A round whose pickers come in turn is fair. -/
theorem play_fair {turn : α → Nat} {place : β → Nat} {suits : α → β → Bool}
    {better : β → β → Prop} {pick : α → List β → Option (β × List β)}
    (picks : ∀ a, Picks place (suits a) better (pick a)) :
    ∀ (pickers : List α) (items : List β), pickers.Pairwise (fun a a' => turn a < turn a') →
      items.Pairwise (fun b c => place b < place c) →
        Fair turn suits better pickers items (play pick pickers items)
  | [], items, _, _ => by
    unfold play
    exact .nil items
  | a :: as, items, ordered, sorted => by
    obtain ⟨first, ordered⟩ := List.pairwise_cons.mp ordered
    unfold play
    cases hp : pick a items with
    | none =>
      have rest := play_fair picks as items ordered sorted
      exact rest.cons_unpaired ((picks a).nothing hp)
    | some found =>
      obtain ⟨b, others⟩ := found
      obtain ⟨perm, sub, suited, best⟩ := (picks a).something sorted hp
      have rest := play_fair picks as others ordered (sorted.sublist sub)
      exact rest.cons_paired first perm sub suited best

end Round
end Lineage
