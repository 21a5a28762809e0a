import Lockstep.Divergence
import Lockstep.Opinion.Basic

/-! Comparing two opinions, and finding where their traces part. -/
namespace Lockstep

/-- Adds a map id to an ascending list, unless it is there. -/
def insertId (id : MapId) : List MapId → List MapId
  | [] => [id]
  | k :: ks =>
    if id < k then id :: k :: ks
    else if id = k then k :: ks
    else k :: insertId id ks

namespace Opinion
variable (ours theirs : Opinion)

/-- The categories in which two opinions may differ: commands, the world, and
every map that one of them has samples for, by ascending id. -/
def categories : List Category :=
  .command :: .world :: (theirs.mapIds.foldr insertId ours.mapIds).map .map

/-- The first way in which two opinions disagree. Ranges come first: samples
are compared only where the ranges may be the same. -/
def disagreement? : Option Disagreement :=
  if ours.range.Compatible theirs.range then
    ((ours.categories theirs).findSome? fun c =>
      Divergence.between c (ours.samples c) (theirs.samples c)).map .divergence
  else some (.rangeMismatch ⟨ours.range, theirs.range⟩)

/-- Where the trace logs of two opinions part: at the first different hash, or
else at the end of the shorter log. Logs that are equal, and a log that is
empty, give no such place. -/
def traceDiff? : Option Nat :=
  match firstMismatch? ours.hashes theirs.hashes with
  | some (i, _) => some i
  | none =>
    let shared := min ours.hashes.length theirs.hashes.length
    if ours.hashes.length = theirs.hashes.length ∨ shared = 0 then none else some (shared - 1)

end Opinion

end Lockstep
