import Lockstep.Config
import Lockstep.Pool
import Lockstep.Report

/-! The coordinator: the state that aligns the opinions of both sides, and the
recording of the local one. -/
namespace Lockstep

/-- Two opinions that start on one tick and disagree, the earlier first. -/
structure Conflict where
  first : Opinion
  second : Opinion
  cause : Disagreement
deriving DecidableEq

/-- How far a session has come: a conflict ends it, and is reported once. -/
inductive Phase
  | running
  | conflict (c : Conflict)
  | reported
deriving DecidableEq

/-- The opinions that wait for their counterparts, oldest first, the local
opinion in the making, and what has been confirmed so far. -/
structure Coordinator where
  config : Config
  backlog : List Opinion := []
  current : Option Opinion := none
  pool : Pool
  lastValid : Option Tick := none
  arbiterAtLastValid : Bool := false
  arbiterPlaying : Bool := false
  catchUpTarget : Option Tick := none
  phase : Phase := .running
deriving DecidableEq

namespace Coordinator

/-- A coordinator that has seen nothing yet. -/
def new (config : Config) : Coordinator :=
  { config, pool := { capacity := config.maxPooled } }

variable (c : Coordinator)

/-- The two sides have been found to disagree. -/
def desynced : Bool :=
  match c.phase with
  | .running => false
  | .conflict _ | .reported => true

/-- A conflict waits for its report. -/
def hasPending : Bool :=
  match c.phase with
  | .conflict _ => true
  | .running | .reported => false

/-- Recording calls take effect. -/
def collecting : Bool := !c.config.replay && !c.desynced

def catchingUp : Bool := c.catchUpTarget.isSome

/-- Notes that the simulation hurries towards a tick. -/
def startCatchUp (target : Tick) : Coordinator :=
  if c.desynced then c else { c with catchUpTarget := some target }

def finishCatchUp : Coordinator := { c with catchUpTarget := none }

def setArbiterPlaying (playing : Bool) : Coordinator := { c with arbiterPlaying := playing }

/-- The local opinion in the making, opened at `tick` if there is none. -/
def openCurrent (tick : Tick) : Opinion × Pool :=
  match c.current with
  | some o => (o, c.pool)
  | none => c.pool.checkout tick .local

/-- Writes to the local opinion in the making. -/
def record (tick : Tick) (write : Opinion → Opinion) : Coordinator :=
  if c.collecting then
    let (o, pool) := c.openCurrent tick
    let o := if c.catchingUp then o.markSimulating else o
    { c with current := some (write o), pool }
  else c

def addState (tick : Tick) (k : Category) (s : GeneratorState) : Coordinator :=
  c.record tick (·.recordState k s)

def addInfo (tick : Tick) (subject detail : String) : Coordinator :=
  c.record tick (·.logEntry (.info ⟨tick, subject, detail⟩))

/-- Records a traced call, if calls are traced. -/
def addCall (tick : Tick) (e : CallEntry) (depth : UInt32) (site : TraceHash) : Coordinator :=
  if c.config.logTraces then
    c.record tick (·.logEntry (.call ({ e with tick }.sealed depth site)))
  else c

/-- Closes the local opinion in the making and hands it out. After a desync
nothing is handed out. -/
def takeLocal (stop : Tick) : Logged (Option Opinion × Coordinator) :=
  match c.current with
  | none => return (none, c)
  | some o =>
    if c.desynced then
      return (none, { c with current := none, pool := ← c.pool.release o })
    else return (some (o.finish stop), { c with current := none })

end Coordinator

end Lockstep
