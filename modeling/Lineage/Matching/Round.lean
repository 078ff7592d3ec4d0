/-
# Rounds

In a round everyone on one side picks in turn from what the others before have
left on the other side, and what is picked is gone. A picker may take the first
or the last of what suits.

Key definitions: `Round`, `Round.pickFirst`, `Round.pickLast`, `Round.play`.
-/
namespace Lineage

/-- The outcome of a round: who got what, who got nothing, and what is left. -/
structure Round (α β : Type) where
  pairs : List (α × β)
  unpaired : List α
  left : List β

namespace Round

variable {α β : Type}

/-- The first one that suits, and the others. -/
def pickFirst (suits : β → Bool) : List β → Option (β × List β)
  | [] => none
  | b :: bs =>
    if suits b then some (b, bs)
    else (pickFirst suits bs).map fun (c, rest) => (c, b :: rest)

/-- The last one that suits, and the others. -/
def pickLast (suits : β → Bool) : List β → Option (β × List β)
  | [] => none
  | b :: bs =>
    match pickLast suits bs with
    | some (c, rest) => some (c, b :: rest)
    | none => if suits b then some (b, bs) else none

/-- Lets everyone in a list pick in turn. -/
def play (pick : α → List β → Option (β × List β)) : List α → List β → Round α β
  | [], left => ⟨[], [], left⟩
  | a :: as, left =>
    match pick a left with
    | some (b, rest) =>
      let others := play pick as rest
      { others with pairs := (a, b) :: others.pairs }
    | none =>
      let others := play pick as left
      { others with unpaired := a :: others.unpaired }

end Round
end Lineage
