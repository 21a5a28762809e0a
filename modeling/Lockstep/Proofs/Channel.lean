import Lockstep.Channel

/-! What a channel makes of the queue below it. -/
namespace Lockstep.Channel

/-- What a send adds to the queue, by its answer. -/
def added (o : Opinion) : Except HandoffError Unit → List Opinion
  | .ok _ => [o]
  | .error _ => []

variable (c : Channel) (o : Opinion)

/-- A send is refused for its origin first, and then for want of a receiver. -/
theorem send_eq : c.send o =
    if o.origin.isLocal then return (.error (.localOrigin o.start), c)
    else if c.receiving then return (.ok (), { c with queue := c.queue ++ [o] })
    else do
      note (.sessionStopped o.start)
      return (.error .closed, c) := by
  rw [send, Queue.trySend]
  split
  · rfl
  · cases c.receiving <;> rfl

theorem value_send : (c.send o).value =
    if o.origin.isLocal then (.error (.localOrigin o.start), c)
    else if c.receiving then (.ok (), { c with queue := c.queue ++ [o] })
    else (.error .closed, c) := by
  rw [send_eq]
  split
  · rfl
  · split <;> rfl

/-- A send that fails leaves the channel as it is, and any other one puts the
opinion at the end of the queue. -/
theorem send_channel : (c.send o).value.2 =
    { c with queue := c.queue ++ added o (c.send o).value.1 } := by
  rw [value_send]
  split
  · simp [added]
  · split <;> simp [added]

theorem receiving_send : (c.send o).value.2.receiving = c.receiving := by
  rw [send_channel]

theorem queue_send :
    (c.send o).value.2.queue = c.queue ++ added o (c.send o).value.1 := by
  rw [send_channel]

theorem receiveUpTo_eq (c : Channel) (n : Nat) :
    c.receiveUpTo n = (c.queue.take n, { c with queue := c.queue.drop n }) := by
  induction n generalizing c with
  | zero => rfl
  | succ n ih =>
    obtain ⟨⟨receiving, queue⟩, senders⟩ := c
    cases queue with
    | nil => rfl
    | cons o os =>
      have hrest := ih { receiving, queue := os, senders }
      simp only [receiveUpTo, tryReceive, Queue.tryReceive, List.head?_cons, List.tail_cons, hrest,
        List.take_succ_cons, List.drop_succ_cons]

/-- A drain is given all that waits, in the order of sending, and leaves none of it. -/
theorem drain_eq : c.drain = (c.queue, { c with queue := [] }) := by
  rw [drain, receiveUpTo_eq, List.take_length, List.drop_length]

end Lockstep.Channel
