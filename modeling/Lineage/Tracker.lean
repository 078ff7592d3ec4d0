/-
# Trackers

A tracker collects the lifespans of fragments from the matchings of successive
steps. Between steps it only remembers which lifespan each target of the last
step belongs to. A target whose predecessor is remembered continues that
lifespan, with one more change if its content differs; any other target begins
a lifespan.

A step is first planned without touching the tracker, then checked, then carried
out. `Tracker.add` answers with the tracker it leaves behind in every case.

Key definitions: `contentsDiffer`, `Tracker`, `Plan`, `Tracker.plan`, `Tracker.add`.
-/
import Lineage.Lifespan
import Lineage.Matching.Basic

namespace Lineage

/-! ### Comparing contents -/

/-- The contents of ranges. -/
def contentsOf : List Range → Work (List (List Char))
  | [] => pure []
  | r :: rs => do
    let content ← r.content
    return content :: (← contentsOf rs)

/-- Whether ranges have other contents than those that remain; each content that
is found is used up. -/
def differFrom : List Range → List (List Char) → Work Bool
  | [], remaining =>
    if remaining = [] then pure false else throw (.inconsistent .contentLeft)
  | r :: rs, remaining => do
    let content ← r.content
    if content ∈ remaining then differFrom rs (remaining.erase content) else pure true

/-- Whether two fragments have different contents, in whatever order their ranges come. -/
def contentsDiffer (f g : Fragment) : Work Bool := do
  if f.ranges.length ≠ g.ranges.length then pure true
  else differFrom f.ranges (← contentsOf g.ranges)

/-! ### Trackers -/

/-- The lifespans so far, and the places in that list of the lifespans that the
targets of the last step belong to, by handle. -/
structure Tracker where
  lifespans : List Lifespan
  tracked : List (Nat × Nat)

/-- What a step will do: the lifespans it begins, the snapshots it adds to
lifespans, and what it leaves tracked. -/
structure Plan where
  started : List Lifespan
  updates : List (Nat × Snapshot)
  tracked : List (Nat × Nat)

namespace Tracker

/-- No lifespans. -/
def empty : Tracker :=
  ⟨[], []⟩

/-- The place of the lifespan that a fragment of the last step belongs to. -/
def placeOf (t : Tracker) (f : Fragment) : Option Nat :=
  t.tracked.lookup f.handle

/-- That lifespan with its place. -/
def find (t : Tracker) (f : Fragment) : Option (Nat × Lifespan) := do
  let k ← t.placeOf f
  let l ← t.lifespans[k]?
  pure (k, l)

/-- Sets what a handle leads to. -/
def put (handle place : Nat) : List (Nat × Nat) → List (Nat × Nat)
  | [] => [(handle, place)]
  | (h, p) :: rest => if h = handle then (h, place) :: rest else (h, p) :: put handle place rest

/-- Plans for one more target. -/
def planFragment (t : Tracker) (m : Matching) (plan : Plan) (target : Fragment) : Work Plan := do
  let predecessor := m.predecessor target
  match predecessor.bind fun p => (t.find p).map (p, ·) with
  | some (p, k, l) =>
    let differ ← contentsDiffer p target
    let changes := if differ then l.changes + 1 else l.changes
    let s ← Snapshot.ofFragment target m.ordinal changes
    return { plan with
      updates := plan.updates ++ [(k, s)]
      tracked := put target.handle k plan.tracked }
  | none =>
    if predecessor.isSome then Work.note (.untracked m.ordinal)
    let s ← Snapshot.ofFragment target m.ordinal 0
    return { plan with
      started := plan.started ++ [.start s]
      tracked := put target.handle (t.lifespans.length + plan.started.length) plan.tracked }

/-- Plans for one more place among the targets, which must not be empty. -/
def planTarget (t : Tracker) (m : Matching) (plan : Plan) (target : Option Fragment) :
    Work Plan := do
  t.planFragment m plan (← Work.need .fragment target)

/-- Plans for targets one after the other. -/
def planTargets (t : Tracker) (m : Matching) (plan : Plan) : List (Option Fragment) → Work Plan
  | [] => pure plan
  | target :: rest => do planTargets t m (← planTarget t m plan target) rest

/-- The plan for a matching. -/
def plan (t : Tracker) (m : Matching) : Work Plan :=
  planTargets t m ⟨[], [], []⟩ m.targets

/-- Fails unless every update may be added to its lifespan as it is. -/
def checkUpdates (lifespans : List Lifespan) : List (Nat × Snapshot) → Except Fault Unit
  | [] => .ok ()
  | (k, s) :: rest => do
    match lifespans[k]? with
    | some l => l.requireNext s
    | none => pure ()
    checkUpdates lifespans rest

/-- Adds updates one after the other. The lifespans left behind are given also
if one of them fails. -/
def applyUpdates (lifespans : List Lifespan) :
    List (Nat × Snapshot) → Except Fault Unit × List Lifespan
  | [] => (.ok (), lifespans)
  | (k, s) :: rest =>
    match lifespans[k]? with
    | none => applyUpdates lifespans rest
    | some l =>
      match l.add s with
      | .ok l => applyUpdates (lifespans.set k l) rest
      | .error fault => (.error fault, lifespans)

/-- Carries out a plan. -/
def commit (t : Tracker) (plan : Plan) : Except Fault Unit × Tracker :=
  match applyUpdates (t.lifespans ++ plan.started) plan.updates with
  | (.ok (), lifespans) => (.ok (), ⟨lifespans, plan.tracked⟩)
  | (.error fault, lifespans) => (.error fault, { t with lifespans })

/-- The plan for a matching, if all of it can be carried out. -/
def checkedPlan (t : Tracker) (m : Matching) : Work Plan := do
  let plan ← t.plan m
  checkUpdates t.lifespans plan.updates
  return plan

/-- Takes in the matching of a step. The tracker left behind is given also if that fails. -/
def add (t : Tracker) (m : Matching) : StateM Archive (Except Fault Unit × Tracker) := do
  match ← (t.checkedPlan m).run with
  | .error fault => pure (.error fault, t)
  | .ok plan =>
    match t.commit plan with
    | (.error fault, t') => pure (.error fault, t')
    | (.ok (), t') =>
      let told ← (Work.note (.tracked m.ordinal plan.started.length plan.updates.length
        t'.lifespans.length)).run
      pure (told, t')

end Tracker
end Lineage
