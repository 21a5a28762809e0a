import Lockstep.Mismatch
import Lockstep.Sample
import Lockstep.Tick
import Lockstep.Text.Hex

/-! How two opinions on the same ticks can disagree, and the words for it. -/
namespace Lockstep

/-- The two ways in which sample sequences differ: by a sample, or by their
lengths alone. -/
inductive Divergence.Kind
  | state (ours theirs : Sample)
  | count (ours theirs : Nat)
deriving DecidableEq

/-- The first point at which the samples of a category differ. -/
structure Divergence where
  category : Category
  index : Nat
  kind : Divergence.Kind
deriving DecidableEq

namespace Divergence

/-- The first differing sample, or else the first index that only the longer
sequence has. -/
def between (c : Category) (ours theirs : List Sample) : Option Divergence :=
  match firstMismatch? ours theirs with
  | some (i, a, b) => some ⟨c, i, .state a b⟩
  | none =>
    if ours.length = theirs.length then none
    else some ⟨c, min ours.length theirs.length, .count ours.length theirs.length⟩

@[simp] theorem between_self (c : Category) (xs : List Sample) : between c xs xs = none := by
  simp [between]

def message (d : Divergence) : String :=
  match d.kind with
  | .state ours theirs =>
    s!"Wrong {d.category} random state at index {d.index} " ++
      s!"({Hex.wideText 8 ours.toNat} vs {Hex.wideText 8 theirs.toNat})"
  | .count ours theirs =>
    s!"Wrong {d.category} random state count ({ours} vs {theirs}), " ++
      s!"first missing index {d.index}"

end Divergence

/-- Two ranges that cannot describe the same ticks. -/
structure RangeMismatch where
  ours : TickRange
  theirs : TickRange
deriving DecidableEq

def RangeMismatch.message (m : RangeMismatch) : String :=
  s!"Cannot compare opinions over different tick ranges: {m.ours} vs {m.theirs}"

/-- Why two opinions that start on the same tick do not agree. -/
inductive Disagreement
  | divergence (d : Divergence)
  | rangeMismatch (m : RangeMismatch)
deriving DecidableEq

def Disagreement.message : Disagreement → String
  | .divergence d => d.message
  | .rangeMismatch m => m.message

end Lockstep
