import Lockstep.Sample
import Lockstep.Tick
import Lockstep.Text.Hex
import Lockstep.Trace.Hash

/-! The entries of an opinion's trace log. -/
namespace Lockstep

/-- A pair of texts logged to help find a desync. -/
structure InfoEntry where
  tick : Tick
  subject : String
  detail : String
deriving DecidableEq

/-- The tick plays no part in the hash of an info entry. -/
def InfoEntry.hash (e : InfoEntry) : TraceHash :=
  (TraceHash.ofString e.subject).combine (TraceHash.ofString e.detail)

def InfoEntry.describe (e : InfoEntry) : String :=
  s!"[{e.tick}] {e.subject} | {e.detail}"

/-- The name of a simulated object. -/
abbrev ThingId := Int32

/-- The simulated object that was active when a call was traced. -/
structure Thing where
  definition : String
  id : ThingId
deriving DecidableEq

/-- A traced call. Its depth and hash are zero until it is sealed. -/
structure CallEntry where
  tick : Tick := 0
  hash : TraceHash := 0
  depth : UInt32 := 0
  gameTick : Int32 := 0
  generator : GeneratorState := 0
  callSite : String
  faction : String := ""
  moreInfo : Option String := none
  thing : Option Thing := none
deriving DecidableEq

namespace CallEntry
variable (e : CallEntry) (depth : UInt32) (site : TraceHash)

/-- The values that a seal folds into the hash of the call site: the depth,
both halves of the generator state, and whatever is known of the context. -/
def sealedValues : List TraceHash :=
  [depth.toInt32, (e.generator >>> 32).toUInt32.toInt32, e.generator.toUInt32.toInt32] ++
    (if e.faction = "" then [] else [TraceHash.ofString e.faction]) ++
    (match e.thing with
      | none => []
      | some t => [TraceHash.ofString t.definition, t.id])

/-- Fixes the depth and the hash of an entry. -/
def sealed : CallEntry :=
  { e with depth, hash := TraceHash.combineAll site (e.sealedValues depth) }

def describe : String :=
  s!"[{e.tick}] {e.callSite} (depth {e.depth}, game tick {e.gameTick}, " ++
    s!"rng {Hex.wideText 16 e.generator.toNat})" ++
    (if e.faction = "" then "" else s!" faction {e.faction}") ++
    (match e.thing with
      | none => ""
      | some t => s!" thing {t.definition}#{t.id}") ++
    (match e.moreInfo with
      | none => ""
      | some more => s!" {more}")

end CallEntry

inductive TraceEntry
  | info (e : InfoEntry)
  | call (e : CallEntry)
deriving DecidableEq

namespace TraceEntry

def tick : TraceEntry → Tick
  | .info e => e.tick
  | .call e => e.tick

def hash : TraceEntry → TraceHash
  | .info e => e.hash
  | .call e => e.hash

/-- A line of text for the reader of a report. -/
def describe : TraceEntry → String
  | .info e => e.describe
  | .call e => e.describe

end TraceEntry

end Lockstep
