/-
# Fragments

A fragment is a piece of code that a detector found in one revision: the ranges
it takes up and, if the detector knows them, a signature and metadata. Fragments
are told apart by their handles, not by what they hold.

Each fragment brings the criteria by which it recognises the fragment that
continues it. By the standard criteria, metadata must be the same where both
have some, signatures must be equal and not blank, and ranges must be as many and
each be found again on the other side.

Key definitions: `Finding`, `Criteria`, `Criteria.standard`, `Fragment`.
-/
import Lineage.Json.Literal
import Lineage.Range
import Lineage.Text.Blank

namespace Lineage

/-- What a detector found. -/
structure Finding where
  handle : Nat
  ranges : List Range
  signature : Option String
  metadata : Json

/-- How a finding recognises another one. The last criterion is given ranges to
compare in place of the finding's own. -/
structure Criteria where
  compatible : Finding → Option Finding → Bool
  sameSignature : Finding → Option Finding → Bool
  sameRanges : Finding → List Range → Option Finding → Bool

namespace Criteria

/-- Whether there is no metadata. -/
def isAbsent : Json → Bool
  | .null => true
  | _ => false

/-- Metadata agree if one side has none or both are the same. -/
def metadataAgree (v w : Json) : Bool :=
  isAbsent v || isAbsent w || v.same w

/-- Signatures agree if they are equal and not blank. -/
def signaturesAgree : Option String → Option String → Bool
  | some s, some t => !Text.isBlankText s && !Text.isBlankText t && s == t
  | _, _ => false

/-- Ranges agree if they are as many and each lies where one of the others lies. -/
def rangesAgree (rs ss : List Range) : Bool :=
  rs.length == ss.length && rs.all fun r => ss.any fun s => r.span == s.span

/-- The standard criteria. Nothing is recognised in nothing. -/
def standard : Criteria where
  compatible f other := other.any fun g => metadataAgree f.metadata g.metadata
  sameSignature f other := other.any fun g => signaturesAgree f.signature g.signature
  sameRanges _ ranges other := other.any fun g => rangesAgree ranges g.ranges

/-- The standard criteria, save those that are settled beforehand. -/
def settled (compatible sameSignature sameRanges : Option Bool) : Criteria where
  compatible f other := compatible.getD (standard.compatible f other)
  sameSignature f other := sameSignature.getD (standard.sameSignature f other)
  sameRanges f ranges other := sameRanges.getD (standard.sameRanges f ranges other)

end Criteria

/-- A finding with its criteria and the way messages show it. -/
structure Fragment extends Finding where
  criteria : Criteria
  text : String

namespace Fragment

/-- A fragment with ranges alone. -/
def plain (handle : Nat) (ranges : List Range) : Fragment :=
  ⟨⟨handle, ranges, none, .null⟩, .standard, "PlainMappable"⟩

/-- A fragment with the standard criteria. It is shown without its ranges, since
messages only name fragments that have none. -/
def basic (handle : Nat) (ranges : List Range) (signature : Option String) (metadata : Json) :
    Fragment :=
  let shownSignature := String.ofList (signature.elim Json.null Json.str).literal
  let shownMetadata := String.ofList metadata.literal
  ⟨⟨handle, ranges, signature, metadata⟩, .standard,
    s!"BasicMappable(range_list=[], signature_value={shownSignature}, " ++
      s!"metadata_value={shownMetadata})"⟩

/-- A fragment with criteria of its own. -/
def withCriteria (handle : Nat) (ranges : List Range) (signature : Option String)
    (metadata : Json) (criteria : Criteria) : Fragment :=
  ⟨⟨handle, ranges, signature, metadata⟩, criteria, "OverridingMappable"⟩

/-- Whether a fragment could be the same kind of thing as another one. -/
def compatible (f g : Fragment) : Bool :=
  f.criteria.compatible f.toFinding (some g.toFinding)

/-- Whether a fragment's signature is found again. -/
def sameSignature (f g : Fragment) : Bool :=
  f.criteria.sameSignature f.toFinding (some g.toFinding)

/-- Whether ranges of a fragment are found again. -/
def sameRanges (f : Fragment) (ranges : List Range) (g : Fragment) : Bool :=
  f.criteria.sameRanges f.toFinding ranges (some g.toFinding)

/-- Leaves out fragments whose handle is among those `seen` or came before. -/
def keepFirst (seen : List Nat) : List Fragment → List Fragment
  | [] => []
  | f :: fs =>
    if f.handle ∈ seen then keepFirst seen fs else f :: keepFirst (f.handle :: seen) fs

/-- The fragments of a list, each once, in the order in which they come first. -/
def distinct (fs : List (Option Fragment)) : List Fragment :=
  keepFirst [] (fs.filterMap id)

end Fragment
end Lineage
