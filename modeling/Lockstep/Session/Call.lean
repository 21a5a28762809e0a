import Lockstep.Coordinator.Call
import Lockstep.Session.Basic

/-! The calls that a session answers, as data. -/
namespace Lockstep

/-- A call on a session. -/
inductive Session.Call
  | coordinate (k : Coordinator.Call)
  | send (o : Opinion)
  | receive (o : Opinion)
  | finishLocal (stop : Tick)
  | update
  | nextId
deriving DecidableEq

/-- The answer to a call on a session. -/
inductive Session.Reply
  | coordinated (r : Coordinator.Reply)
  | sent (r : Except HandoffError Unit)
  | received (r : Outcome)
  | finished (o : Option Opinion)
  | events (e : Events)
  | id (r : Except IdBlock.Exhausted EntityId)

/-- Answers one call. -/
def Session.perform (s : Session) : Session.Call → Logged (Session.Reply × Session)
  | .coordinate k => do
    let (r, coordinator) ← s.coordinator.perform k
    return (.coordinated r, { s with coordinator })
  | .send o => do
    let (r, s) ← s.send o
    return (.sent r, s)
  | .receive o => do
    let (r, s) ← s.receive o
    return (.received r, s)
  | .finishLocal stop => do
    let (o, s) ← s.finishLocal stop
    return (.finished o, s)
  | .update => do
    let (e, s) ← s.update
    return (.events e, s)
  | .nextId => do
    let (r, s) ← s.nextId
    return (.id r, s)

end Lockstep
