import Lockstep.Coordinator.Submit

/-! The calls that a coordinator answers, as data. -/
namespace Lockstep.Coordinator

/-- A call on a coordinator. -/
inductive Call
  | addState (tick : Tick) (category : Category) (state : GeneratorState)
  | addInfo (tick : Tick) (subject detail : String)
  | addCall (tick : Tick) (entry : CallEntry) (depth : UInt32) (site : TraceHash)
  | startCatchUp (target : Tick)
  | finishCatchUp
  | setArbiterPlaying (playing : Bool)
  | takeLocal (stop : Tick)
  | submit (o : Opinion)
  | processPending
deriving DecidableEq

/-- The answer to a call. -/
inductive Reply
  | done
  | taken (o : Option Opinion)
  | outcome (r : Outcome)
  | reports (rs : List Report)
deriving DecidableEq

variable (c : Coordinator)

/-- Answers one call. -/
def perform : Call → Logged (Reply × Coordinator)
  | .addState tick k s => pure (.done, c.addState tick k s)
  | .addInfo tick subject detail => pure (.done, c.addInfo tick subject detail)
  | .addCall tick e depth site => pure (.done, c.addCall tick e depth site)
  | .startCatchUp target => pure (.done, c.startCatchUp target)
  | .finishCatchUp => pure (.done, c.finishCatchUp)
  | .setArbiterPlaying playing => pure (.done, c.setArbiterPlaying playing)
  | .takeLocal stop => do
    let (o, c) ← c.takeLocal stop
    return (.taken o, c)
  | .submit o => do
    let (r, c) ← c.submit o
    return (.outcome r, c)
  | .processPending =>
    let (rs, c) := c.processPending
    pure (.reports rs, c)

end Lockstep.Coordinator
