import Lockstep.Coordinator.Basic

/-! Submitting opinions: queueing, alignment, comparison, and the report of a
conflict. -/
namespace Lockstep

/-- What became of a submitted opinion. -/
inductive Outcome
  /-- The sides have already been found to disagree. -/
  | ignored
  /-- It waits for its counterpart. -/
  | queued
  /-- It agrees with its counterpart on the range from this tick. -/
  | confirmed (tick : Tick)
  /-- It starts before the opinion at the front of those that wait. -/
  | discarded
  /-- It disagrees with its counterpart. -/
  | desynced
deriving DecidableEq

/-- The report of a conflict: the local opinion is told from the remote one by
its origin, whichever came first. -/
def Conflict.report (k : Conflict) (lastValid : Option Tick) (arbiterAtLastValid : Bool) :
    Report :=
  let (ours, theirs) := if k.first.origin.isLocal then (k.first, k.second) else (k.second, k.first)
  { cause := k.cause
    localOpinion := ours
    remoteOpinion := theirs
    diffAt := ours.traceDiff? theirs
    lastValid
    arbiterAtLastValid }

namespace Coordinator
variable (c : Coordinator)

/-- Gives an opinion back to the pool. -/
def recycle (o : Opinion) : Logged Coordinator :=
  return { c with pool := ← c.pool.release o }

/-- Drops the oldest waiting opinion if one too many waits. -/
def trimBacklog : Logged Coordinator :=
  match c.backlog with
  | [] => pure c
  | oldest :: rest =>
    if c.config.maxBacklog ≤ rest.length then
      return { c with backlog := rest, pool := ← c.pool.evict oldest }
    else pure c

/-- Drops the oldest waiting opinions, as far as they start before a tick. -/
def evictBefore (tick : Tick) : Logged Coordinator :=
  return { c with
    backlog := c.backlog.dropWhile (·.start < tick)
    pool := ← c.pool.evictAll (c.backlog.takeWhile (·.start < tick)) }

/-- Ends the session with a conflict. Collection and catching up stop. -/
def halt (k : Conflict) : Logged Coordinator := do
  let pool ← match c.current with
    | none => pure c.pool
    | some o => c.pool.release o
  return { c with current := none, pool, catchUpTarget := none, phase := .conflict k }

def warnRanges : Disagreement → Logged Unit
  | .divergence _ => pure ()
  | .rangeMismatch m => note (.rangesDisagree m)

/-- Compares a waiting opinion with its counterpart. -/
def settle (old new : Opinion) : Logged (Outcome × Coordinator) :=
  match old.disagreement? new with
  | none => do
    note (.confirmed old.start)
    let c ← c.recycle old
    let c ← c.recycle new
    return (.confirmed old.start,
      { c with lastValid := some old.start, arbiterAtLastValid := c.arbiterPlaying })
  | some cause => do
    warnRanges cause
    note (.desynced c.lastValid cause)
    return (.desynced, ← c.halt ⟨old, new, cause⟩)

/-- Finds the counterpart of an opinion among those of the other side. What
starts earlier than the opinion has lost its chance. -/
def align (o : Opinion) : Logged (Outcome × Coordinator) := do
  let c ← c.evictBefore o.start
  match c.backlog with
  | [] => return (.queued, { c with backlog := [o] })
  | front :: rest =>
    if front.start = o.start then settle { c with backlog := rest } front o
    else
      note (.discardingStale o.origin o.start)
      return (.discarded, ← c.recycle o)

/-- Takes in an opinion of either side. -/
def submit (o : Opinion) : Logged (Outcome × Coordinator) :=
  if c.desynced then return (.ignored, ← c.recycle o)
  else
    match c.backlog with
    | [] => return (.queued, { c with backlog := [o] })
    | front :: _ =>
      if front.origin = o.origin then
        return (.queued, ← { c with backlog := c.backlog ++ [o] }.trimBacklog)
      else c.align o

def submitAll (os : List Opinion) : Logged (List Outcome × Coordinator) :=
  Logged.feed submit os c

/-- Hands out the report of a conflict that has none yet. -/
def processPending : List Report × Coordinator :=
  match c.phase with
  | .conflict k =>
    ([k.report c.lastValid c.arbiterAtLastValid], { c with phase := .reported })
  | .running | .reported => ([], c)

end Coordinator

end Lockstep
