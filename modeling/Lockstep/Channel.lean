import Lockstep.Logged
import Lockstep.Opinion.Basic
import Lockstep.Queue

/-! The channel that brings remote opinions to a session: what it checks and logs by itself, on top
of the queue that is assumed. -/
namespace Lockstep

/-- Why an opinion is not accepted by a channel. -/
inductive HandoffError
  | closed
  /-- Only remote opinions may travel. -/
  | localOrigin (tick : Tick)
deriving DecidableEq

def HandoffError.message : HandoffError → String
  | .closed => "Remote opinion channel is closed, the session has stopped"
  | .localOrigin tick =>
    s!"Opinion for tick {tick} is of local origin and cannot be handed off as remote"

/-- Named senders and one receiver, with a queue of opinions between them. -/
structure Channel extends Queue Opinion where
  senders : List String
deriving DecidableEq

namespace Channel
variable (c : Channel)

/-- Sends an opinion. Its origin is checked before the queue is tried. -/
def send (o : Opinion) : Logged (Except HandoffError Unit × Channel) :=
  if o.origin.isLocal then return (.error (.localOrigin o.start), c)
  else
    match c.trySend o with
    | some toQueue => return (.ok (), { c with toQueue })
    | none => do
      note (.sessionStopped o.start)
      return (.error .closed, c)

/-- Names one more sender. -/
def addSender (name : String) : Channel := { c with senders := c.senders.insert name }

/-- Forgets a sender, and tells whether there was one. -/
def dropSender (name : String) : Bool × Channel :=
  (c.senders.contains name, { c with senders := c.senders.erase name })

/-- Forgets the receiver, and tells whether there was one. -/
def dropReceiver : Bool × Channel := (c.receiving, { c with toQueue := .closed })

/-- Receives the oldest opinion that waits. -/
def tryReceive : Option Opinion × Channel :=
  let (o, toQueue) := c.toQueue.tryReceive
  (o, { c with toQueue })

/-- Receives until `n` opinions have come or none is left. -/
def receiveUpTo (c : Channel) : Nat → List Opinion × Channel
  | 0 => ([], c)
  | n + 1 =>
    match c.tryReceive with
    | (none, c) => ([], c)
    | (some o, c) =>
      let (os, c) := c.receiveUpTo n
      (o :: os, c)

/-- Receives until none is left. -/
def drain : List Opinion × Channel := c.receiveUpTo c.queue.length

end Channel

end Lockstep
