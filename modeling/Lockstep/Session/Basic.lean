import Lockstep.Channel
import Lockstep.Coordinator.Submit
import Lockstep.IdBlock

/-! A session: a coordinator, the channel that feeds it, and a block of ids. -/
namespace Lockstep

/-- The desync detection of one multiplayer session. -/
structure Session where
  coordinator : Coordinator
  inbox : Channel
  ids : IdBlock
deriving DecidableEq

namespace Session

/-- The name under which a session keeps a sender of its own. -/
def ownSender : String := "session"

/-- A session that starts with the given block of ids. -/
def new (config : Config) (ids : IdBlock) : Session where
  coordinator := .new config
  inbox := { senders := [ownSender] }
  ids

variable (s : Session)

def send (o : Opinion) : Logged (Except HandoffError Unit × Session) := do
  let (r, inbox) ← s.inbox.send o
  return (r, { s with inbox })

/-- Submits an opinion that did not come through the inbox. -/
def receive (o : Opinion) : Logged (Outcome × Session) := do
  let (r, coordinator) ← s.coordinator.submit o
  return (r, { s with coordinator })

/-- Closes the local opinion in the making and submits it. The other side is
to get a copy of it, unless the sides have already been found to disagree. -/
def finishLocal (stop : Tick) : Logged (Option Opinion × Session) := do
  let (o, coordinator) ← s.coordinator.takeLocal stop
  match o with
  | none => return (none, { s with coordinator })
  | some o => do
    let (r, coordinator) ← coordinator.submit o
    return (if r = .ignored then none else some o, { s with coordinator })

/-- Submits all that waits in the inbox, then reports a conflict. -/
def update : Logged (Events × Session) := do
  let (arrived, inbox) := s.inbox.drain
  let (_, coordinator) ← s.coordinator.submitAll arrived
  let (reports, coordinator) := coordinator.processPending
  return (.ofReports reports, { s with coordinator, inbox })

def nextId : Logged (Except IdBlock.Exhausted EntityId × Session) := do
  let (r, ids) ← s.ids.draw
  return (r, { s with ids })

end Session

end Lockstep
