/-! The queue that a channel is built on. -/
namespace Lockstep

/-- A queue between threads, as it is assumed to be: unbounded, first in and first
out, and closed once its receiver is gone. -/
structure Queue (α : Type) where
  /-- There still is a receiver. -/
  receiving : Bool := true
  /-- What waits to be received, oldest first. -/
  queue : List α := []
deriving DecidableEq

namespace Queue
variable {α : Type} (q : Queue α)

/-- Nobody will ever receive what is sent. -/
def isClosed : Bool := !q.receiving

/-- Takes what is sent, unless the queue is closed. -/
def trySend (a : α) : Option (Queue α) :=
  if q.receiving then some { q with queue := q.queue ++ [a] } else none

/-- Gives out what has waited longest. -/
def tryReceive : Option α × Queue α := (q.queue.head?, { q with queue := q.queue.tail })

/-- What is left of a queue whose receiver is gone. All that waited is lost. -/
def closed : Queue α where
  receiving := false

end Queue

end Lockstep
