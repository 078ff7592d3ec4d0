/-
# Matchings

A matching is the outcome of a step: the fragments before it, the sources, those
after it, the targets, and links between them. A source has at most one link and
so has a target. Links go by places in the two lists; a fragment is looked up by
its handle, and if it stands in a list twice the later place is the one found. A
place may be left without a fragment, and then no link can go there.

Key definitions: `Matching`, `Matching.link`, `Matching.successor`, `Matching.predecessor`.
-/
import Lineage.Fragment

namespace Lineage

/-- What a link was made by. -/
inductive Link.Kind where
  | signature
  | position
  deriving DecidableEq, Repr

/-- The kind's name. -/
def Link.Kind.word : Link.Kind → String
  | .signature => "signature"
  | .position => "position"

/-- The kind of a name. -/
def Link.Kind.ofWord? : String → Option Link.Kind
  | "signature" => some .signature
  | "position" => some .position
  | _ => none

/-- A link from a place among the sources to a place among the targets. -/
structure Link where
  source : Nat
  target : Nat
  kind : Link.Kind
  deriving DecidableEq, Repr

/-- Fragments before and after a step, and the links between them. -/
structure Matching where
  ordinal : Int
  sources : List (Option Fragment)
  targets : List (Option Fragment)
  links : List Link

namespace Matching

/-- The last place of a fragment in a list. -/
def place (handle : Nat) : List (Option Fragment) → Option Nat
  | [] => none
  | f :: fs =>
    match place handle fs with
    | some k => some (k + 1)
    | none => if f.map (·.handle) = some handle then some 0 else none

/-- The link of a place among the sources. -/
def linkFrom (m : Matching) (i : Nat) : Option Link :=
  m.links.find? fun l => l.source == i

/-- The link of a place among the targets. -/
def linkTo (m : Matching) (j : Nat) : Option Link :=
  m.links.find? fun l => l.target == j

/-- The fragments on a side. -/
def fragments (m : Matching) : Side → List (Option Fragment)
  | .source => m.sources
  | .target => m.targets

/-- The place of a fragment, or of nothing, on a side. -/
def placeOn (side : Side) (m : Matching) (f : Option Fragment) : Except Fault Nat :=
  match f.bind fun f => place f.handle (m.fragments side) with
  | some k => .ok k
  | none => .error (.misuse (.unknown side))

/-- Adds a link. Both ends have to be known and free. -/
def link (m : Matching) (source target : Option Fragment) (kind : Link.Kind) :
    Except Fault Matching := do
  let i ← m.placeOn .source source
  let j ← m.placeOn .target target
  if (m.linkFrom i).isSome then throw (.inconsistent (.alreadyLinked .source))
  if (m.linkTo j).isSome then throw (.inconsistent (.alreadyLinked .target))
  return { m with links := m.links ++ [⟨i, j, kind⟩] }

/-- The fragment that a source is linked to. -/
def successor (m : Matching) (source : Fragment) : Option Fragment := do
  let i ← place source.handle m.sources
  let l ← m.linkFrom i
  m.targets[l.target]?.join

/-- The fragment that a target is linked from. -/
def predecessor (m : Matching) (target : Fragment) : Option Fragment := do
  let j ← place target.handle m.targets
  let l ← m.linkTo j
  m.sources[l.source]?.join

/-- What the link of a source was made by. -/
def kindOf (m : Matching) (source : Fragment) : Option Link.Kind := do
  let i ← place source.handle m.sources
  let l ← m.linkFrom i
  pure l.kind

/-- The sources with or without a link. -/
def sourcesWhere (m : Matching) (linked : Bool) : List (Option Fragment) :=
  (m.sources.zipIdx.filter fun (_, i) => (m.linkFrom i).isSome == linked).map Prod.fst

/-- The targets with or without a link. -/
def targetsWhere (m : Matching) (linked : Bool) : List (Option Fragment) :=
  (m.targets.zipIdx.filter fun (_, j) => (m.linkTo j).isSome == linked).map Prod.fst

/-- The linked fragments, in the order of the sources. -/
def pairs (m : Matching) : List (Fragment × Fragment) :=
  m.sources.zipIdx.filterMap fun (f, i) => do
    let l ← m.linkFrom i
    pure (← f, ← m.targets[l.target]?.join)

/-- A matching in messages. -/
def text (m : Matching) : String :=
  s!"MappingResult(ordinal={m.ordinal}, from={m.sources.length}, to={m.targets.length}, " ++
    s!"links={m.links.length})"

end Matching
end Lineage
