/-
# Matching a step

The fragments of two successive revisions are matched in two rounds. In the
first one each source takes the last target whose signature it recognises. Then
the ranges of the sources that are left are carried over to the new revision:
every file change whose old file a range lies in translates it, a range that no
change concerns stays as it is, and a source that loses all its ranges keeps the
old ones. In the second round each source takes the first compatible target that
lies where its carried ranges lie.

A matcher remembers the targets of the last step that succeeded, so that the
next step can start from them. `Matcher.map` answers with the matcher it leaves
behind in every case.

Key definitions: `Matching.validate`, `Matching.carry`, `Matching.ofStep`, `Matcher`,
`Matcher.map`.
-/
import Lineage.Matching.Basic
import Lineage.Matching.Round
import Lineage.Step
import Lineage.Translation

namespace Lineage

namespace Matching

/-! ### Preconditions -/

/-- Every fragment has a range. -/
def requireRanges : List Fragment → Except Fault Unit
  | [] => .ok ()
  | f :: fs => if f.ranges = [] then .error (.misuse (.withoutRanges f.text)) else requireRanges fs

/-- Every range lies in the revision of its side. -/
def requireRevision (side : Side) (revision : String) : List Range → Except Fault Unit
  | [] => .ok ()
  | r :: rs =>
    if r.file.version.revision = revision then requireRevision side revision rs
    else .error (.misuse (.otherRevision side r.file.version.revision revision))

/-- Fragments have ranges, those of the targets lie in the revision of the step,
and those of the sources in its predecessor. -/
def validate (sources targets : List Fragment) (step : Step) : Except Fault Unit := do
  requireRanges (sources ++ targets)
  requireRevision .target step.revision (targets.flatMap fun f => f.ranges)
  if sources = [] then pure ()
  else
    match step.predecessor with
    | none => throw (.misuse .noPredecessor)
    | some revision => requireRevision .source revision (sources.flatMap fun f => f.ranges)

/-! ### Carrying ranges over -/

/-- The translations of a range by several changes. -/
def translateBy (r : Range) : List Change → Work (List Range)
  | [] => pure []
  | c :: cs => do
    match ← r.translate c with
    | some moved => return moved :: (← translateBy r cs)
    | none =>
      Work.note (.rangeLost r.text (← c.text))
      translateBy r cs

/-- The changes whose old file a range lies in. -/
def changesOf (changes : List Change) (r : Range) : List Change :=
  changes.filter fun c => c.old.map File.version == some r.file.version

/-- Ranges as the changes leave them. -/
def carryRanges (changes : List Change) : List Range → Work (List Range)
  | [] => pure []
  | r :: rs => do
    let moved ←
      match changesOf changes r with
      | [] => pure [r]
      | c :: cs => translateBy r (c :: cs)
    return moved ++ (← carryRanges changes rs)

/-- The ranges of a fragment as the changes leave them; its own ones if they
leave none. -/
def carry (changes : List Change) (f : Fragment) : Work (List Range) := do
  let ranges ← carryRanges changes f.ranges
  return if ranges = [] then f.ranges else ranges

/-- Fragments with their carried ranges. -/
def carryAll (changes : List Change) :
    List (Fragment × Nat) → Work (List ((Fragment × Nat) × List Range))
  | [] => pure []
  | f :: fs => do
    let ranges ← carry changes f.1
    return (f, ranges) :: (← carryAll changes fs)

/-- The changes that do not add a file. -/
def withoutAdditions : List Change → Except Fault (List Change)
  | [] => .ok []
  | c :: cs => do
    let kind ← c.kind
    let rest ← withoutAdditions cs
    return if kind = .add then rest else c :: rest

/-! ### The two rounds -/

/-- The round by signatures. -/
def bySignature (sources targets : List (Fragment × Nat)) :
    Round (Fragment × Nat) (Fragment × Nat) :=
  Round.play (fun f => Round.pickLast fun t => f.1.sameSignature t.1) sources targets

/-- The round by positions, of sources with their carried ranges. -/
def byPosition (sources : List ((Fragment × Nat) × List Range)) (targets : List (Fragment × Nat)) :
    Round ((Fragment × Nat) × List Range) (Fragment × Nat) :=
  Round.play
    (fun f => Round.pickFirst fun t => f.1.1.compatible t.1 && f.1.1.sameRanges f.2 t.1)
    sources targets

/-- The matching of a step, for fragments that are distinct on each side. -/
def ofStep (sources targets : List Fragment) (step : Step) : Work Matching := do
  validate sources targets step
  let first := bySignature sources.zipIdx targets.zipIdx
  Work.note (.linkedBySignature step.ordinal first.pairs.length)
  let changes ← withoutAdditions step.changes
  let second := byPosition (← carryAll changes first.unpaired) first.left
  Work.note (.linkedByPosition step.ordinal second.pairs.length)
  let links :=
    first.pairs.map (fun (f, t) => (⟨f.2, t.2, .signature⟩ : Link)) ++
      second.pairs.map fun (f, t) => ⟨f.1.2, t.2, .position⟩
  Work.note
    (.mapped step.revision step.ordinal sources.length targets.length links.length)
  return ⟨step.ordinal, sources.map some, targets.map some, links⟩

/-- The matching of a step, for lists in which fragments may be missing or come
more than once. -/
def ofLists (sources targets : List (Option Fragment)) (step : Step) : Work Matching :=
  ofStep (Fragment.distinct sources) (Fragment.distinct targets) step

end Matching

/-- The fragments that the next step starts from. -/
structure Matcher where
  previous : List Fragment

namespace Matcher

/-- A matcher that starts from given fragments. -/
def make (previous : List (Option Fragment)) : Matcher :=
  ⟨Fragment.distinct previous⟩

/-- Matches a step, and remembers its targets. The matcher left behind is given also
if that fails. -/
def map (m : Matcher) (sources targets : List (Option Fragment)) (step : Step) :
    StateM Archive (Except Fault Matching × Matcher) := do
  match ← (Matching.ofLists sources targets step).run with
  | .error fault => pure (.error fault, m)
  | .ok matching => pure (.ok matching, ⟨Fragment.distinct targets⟩)

/-- Matches a step that starts where the last one ended. -/
def mapNext (m : Matcher) (targets : List (Option Fragment)) (step : Step) :
    StateM Archive (Except Fault Matching × Matcher) :=
  m.map (m.previous.map some) targets step

end Matcher
end Lineage
