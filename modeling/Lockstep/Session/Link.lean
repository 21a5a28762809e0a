import Lockstep.Session.Call

/-! The senders' side of a session: what they are connected to while it runs
and after it has stopped. -/
namespace Lockstep

/-- What senders are connected to: a session, or the inbox it left behind. -/
inductive Link
  | live (s : Session)
  | stopped (inbox : Channel)
deriving DecidableEq

namespace Link

/-- A call on a session, by those who hold it or by those who send to it. -/
inductive Call
  | session (k : Session.Call)
  | send (o : Opinion)
  | addSender (name : String)
  | dropSender (name : String)
  | stop
deriving DecidableEq

/-- The answer to a call on a link. -/
inductive Reply
  | answered (r : Session.Reply)
  | sent (r : Except HandoffError Unit)
  | done
  /-- Whether there was something to drop or to stop. -/
  | found (was : Bool)
  /-- The session has stopped. -/
  | gone

def inbox : Link → Channel
  | .live s => s.inbox
  | .stopped inbox => inbox

/-- The session, while it runs. -/
def session? : Link → Option Session
  | .live s => some s
  | .stopped _ => none

/-- The same link with another inbox. -/
def withInbox (inbox : Channel) : Link → Link
  | .live s => .live { s with inbox }
  | .stopped _ => .stopped inbox

variable (l : Link)

/-- Nothing that is sent will be received. -/
def isClosed : Bool := l.inbox.isClosed

/-- Ends the session. Its own sender goes with it, and so does its inbox. -/
def stop : Bool × Link :=
  match l with
  | .live s => (true, .stopped (s.inbox.dropSender Session.ownSender).2.dropReceiver.2)
  | .stopped inbox => (false, .stopped inbox)

/-- Answers one call. -/
def perform : Call → Logged (Reply × Link)
  | .session k =>
    match l with
    | .live s => do
      let (r, s) ← s.perform k
      return (.answered r, .live s)
    | .stopped _ => return (.gone, l)
  | .send o => do
    let (r, inbox) ← l.inbox.send o
    return (.sent r, l.withInbox inbox)
  | .addSender name => return (.done, l.withInbox (l.inbox.addSender name))
  | .dropSender name =>
    let (was, inbox) := l.inbox.dropSender name
    return (.found was, l.withInbox inbox)
  | .stop =>
    let (was, l) := l.stop
    return (.found was, l)

end Link

end Lockstep
