import Lockstep.Coordinator.Call
import Lockstep.Peer.Basic

/-! The calls that a peer answers, as data. -/
namespace Lockstep.Peer

/-- A call on a peer. -/
inductive Call
  | step
  | runRange (ticks : Nat)
  | deliver (o : Opinion)
  | update
  | corrupt (start : Tick)
  | coordinate (k : Coordinator.Call)
deriving DecidableEq

/-- The answer to a call on a peer. -/
inductive Reply
  | done
  | ran (wire : Option Opinion)
  | events (e : Events)
  | coordinated (r : Coordinator.Reply)
deriving DecidableEq

variable {G : Generator} (p : Peer G)

/-- Answers one call. -/
def perform : Call → Logged (Reply × Peer G)
  | .step => return (.done, p.step)
  | .runRange ticks => do
    let (wire, p) ← p.runRange ticks
    return (.ran wire, p)
  | .deliver o => do
    let p ← p.deliver o
    return (.done, p)
  | .update => do
    let (e, p) ← p.update
    return (.events e, p)
  | .corrupt start => return (.done, p.corrupt start)
  | .coordinate k => do
    let (r, c) ← p.session.coordinator.perform k
    return (.coordinated r, { p with session.coordinator := c })

end Lockstep.Peer
