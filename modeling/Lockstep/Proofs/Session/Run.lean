import Lockstep.Proofs.Channel
import Lockstep.Proofs.Coordinator.Run
import Lockstep.Session.Call

/-! Runs of calls on a session, read as runs of calls on its coordinator. -/
namespace Lockstep

namespace Session

/-- The reports that an answer hands out. -/
def Reply.handedOut : Reply → List Report
  | .coordinated r => r.handedOut
  | .events e => e.reports
  | _ => []

variable (s : Session)

/-- What a call on a session makes of its coordinator. -/
def coordinatorCalls : Call → List Coordinator.Call
  | .coordinate k => [k]
  | .receive o => [.submit o]
  | .finishLocal stop =>
    .takeLocal stop :: (s.coordinator.takeLocal stop).value.1.toList.map .submit
  | .update => s.inbox.queue.map .submit ++ [.processPending]
  | .send _ | .nextId => []

/-- The state that a run leads to. -/
def after (ks : List Call) : Session := (Logged.feed perform ks s).value.2

/-- The answers that a run gives. -/
def replies (ks : List Call) : List Reply := (Logged.feed perform ks s).value.1

/-- The reports that a run hands out. -/
def reports (ks : List Call) : List Report :=
  (Logged.feed perform ks s).value.1.flatMap Reply.handedOut

/-- What a run logs. -/
def log (ks : List Call) : List LogEntry := (Logged.feed perform ks s).log

/-- What a run makes of the coordinator. -/
def coordinatorRun (s : Session) : List Call → List Coordinator.Call
  | [] => []
  | k :: ks => s.coordinatorCalls k ++ coordinatorRun (s.perform k).value.2 ks

/-- The outcomes of all submissions of a run, those made by updates included. -/
def outcomes (ks : List Call) : List Outcome := s.coordinator.outcomes (s.coordinatorRun ks)

/-- What a call logs beside what the coordinator does. -/
def ownLog : Call → List LogEntry
  | .send o => (s.inbox.send o).log
  | .nextId => s.ids.draw.log
  | _ => []

variable {s} {k : Call}

@[simp] theorem after_nil (s : Session) : s.after [] = s := rfl

@[simp] theorem after_cons (s : Session) (k : Call) (ks : List Call) :
    s.after (k :: ks) = (s.perform k).value.2.after ks := rfl

theorem after_append (s : Session) (ks ls : List Call) :
    s.after (ks ++ ls) = (s.after ks).after ls := by
  simp [after, Logged.feed_append]

theorem log_cons (s : Session) (k : Call) (ks : List Call) :
    s.log (k :: ks) = (s.perform k).log ++ (s.perform k).value.2.log ks := by
  simp [log, Logged.feed]

theorem replies_append (s : Session) (ks ls : List Call) :
    s.replies (ks ++ ls) = s.replies ks ++ (s.after ks).replies ls := by
  simp [replies, after, Logged.feed_append]

theorem reports_append (s : Session) (ks ls : List Call) :
    s.reports (ks ++ ls) = s.reports ks ++ (s.after ks).reports ls := by
  simp [reports, after, Logged.feed_append]

theorem coordinatorRun_append (s : Session) (ks ls : List Call) :
    s.coordinatorRun (ks ++ ls) = s.coordinatorRun ks ++ (s.after ks).coordinatorRun ls := by
  induction ks generalizing s with
  | nil => rfl
  | cons k ks ih => simp [coordinatorRun, ih]

theorem reports_cons (s : Session) (k : Call) (ks : List Call) :
    s.reports (k :: ks) =
      (s.perform k).value.1.handedOut ++ (s.perform k).value.2.reports ks := by
  simp [reports, Logged.feed]

theorem finishLocal_eq (s : Session) (stop : Tick) :
    (s.finishLocal stop).value.2 =
      { s with coordinator := s.coordinator.after (s.coordinatorCalls (.finishLocal stop)) } := by
  rw [finishLocal, coordinatorCalls]
  simp only [Logged.value_bind, Coordinator.after_cons, Coordinator.perform, Logged.value_pure]
  cases (s.coordinator.takeLocal stop).value.1 <;> rfl

theorem update_eq (s : Session) :
    s.update.value.1.reports = s.coordinator.reports (s.coordinatorCalls .update) ∧
      s.update.value.2 =
        { s with
          coordinator := s.coordinator.after (s.coordinatorCalls .update)
          inbox := { s.inbox with queue := [] } } := by
  rw [update, coordinatorCalls, Channel.drain_eq, Coordinator.reports_append,
    Coordinator.after_append, Coordinator.after_submits, Coordinator.reports_submits,
    Coordinator.reports_cons]
  exact ⟨(List.append_nil _).symm, rfl⟩

/-- An update submits all that waits in the inbox. -/
@[simp] theorem submitted_update (s : Session) :
    Coordinator.submitted (s.coordinatorCalls .update) = s.inbox.queue := by
  rw [coordinatorCalls, Coordinator.submitted_append, Coordinator.submitted_submits]
  exact List.append_nil _

/-- A call on a session does to the coordinator what it comes down to, and
hands out the same reports. -/
theorem perform_coordinator (s : Session) (k : Call) :
    (s.perform k).value.2.coordinator = s.coordinator.after (s.coordinatorCalls k) ∧
      (s.perform k).value.1.handedOut = s.coordinator.reports (s.coordinatorCalls k) := by
  cases k with
  | coordinate k =>
    refine ⟨rfl, ?_⟩
    rw [coordinatorCalls, Coordinator.reports_cons, Coordinator.reports_nil, List.append_nil]
    rfl
  | send o =>
    rw [perform, send]
    exact ⟨rfl, rfl⟩
  | receive o => exact ⟨rfl, rfl⟩
  | finishLocal stop =>
    refine ⟨congrArg Session.coordinator (s.finishLocal_eq stop), ?_⟩
    rw [coordinatorCalls, Coordinator.reports_cons, Coordinator.reports_submits]
    rfl
  | update =>
    obtain ⟨hr, hs⟩ := s.update_eq
    exact ⟨congrArg Session.coordinator hs, hr⟩
  | nextId => exact ⟨rfl, rfl⟩

theorem run_coordinator (s : Session) (ks : List Call) :
    (s.after ks).coordinator = s.coordinator.after (s.coordinatorRun ks) ∧
      s.reports ks = s.coordinator.reports (s.coordinatorRun ks) := by
  induction ks generalizing s with
  | nil => exact ⟨rfl, rfl⟩
  | cons k ks ih =>
    obtain ⟨hc, hr⟩ := s.perform_coordinator k
    obtain ⟨hcs, hrs⟩ := ih (s.perform k).value.2
    rw [coordinatorRun, Coordinator.after_append, Coordinator.reports_append, reports_cons,
      ← hc, ← hr]
    exact ⟨hcs, by rw [hrs]⟩

theorem outcomes_cons (s : Session) (k : Call) (ks : List Call) :
    s.outcomes (k :: ks) =
      s.coordinator.outcomes (s.coordinatorCalls k) ++ (s.perform k).value.2.outcomes ks := by
  rw [outcomes, coordinatorRun, Coordinator.outcomes_append, ← (s.perform_coordinator k).1]
  rfl

/-- The outcomes of a run go on with those of its continuation. -/
theorem outcomes_append (s : Session) (ks ls : List Call) :
    s.outcomes (ks ++ ls) = s.outcomes ks ++ (s.after ks).outcomes ls := by
  rw [outcomes, coordinatorRun_append, Coordinator.outcomes_append, ← (s.run_coordinator ks).1]
  rfl

/-- A call logs what the coordinator logs at it, and little of its own. -/
theorem log_perform (s : Session) (k : Call) :
    (s.perform k).log = s.ownLog k ++ s.coordinator.log (s.coordinatorCalls k) := by
  cases k with
  | coordinate k => simp [perform, ownLog, coordinatorCalls, Coordinator.log_cons]
  | send o => simp [perform, send, ownLog, coordinatorCalls]
  | receive o =>
    simp [perform, receive, ownLog, coordinatorCalls, Coordinator.log_cons, Coordinator.perform]
  | finishLocal stop =>
    simp only [perform, finishLocal, ownLog, coordinatorCalls, Logged.log_bind, List.nil_append,
      Coordinator.log_cons, Coordinator.perform, Logged.log_pure, List.append_nil,
      Logged.value_bind, Logged.value_pure]
    cases (s.coordinator.takeLocal stop).value.1 with
    | none => simp
    | some o => simp [Coordinator.log_cons, Coordinator.perform]
  | update =>
    simp only [perform, update, ownLog, coordinatorCalls, Channel.drain_eq, Logged.log_bind,
      List.nil_append, Coordinator.log_append, Coordinator.log_submits, Coordinator.log_cons]
    simp [Coordinator.perform]
  | nextId => simp [perform, nextId, ownLog, coordinatorCalls]

/-- A run of calls that log nothing of their own logs what the coordinator logs. -/
theorem log_run {ks : List Call} (hks : ∀ k ∈ ks, ∀ s : Session, s.ownLog k = [])
    (s : Session) : s.log ks = s.coordinator.log (s.coordinatorRun ks) := by
  induction ks generalizing s with
  | nil => rfl
  | cons k ks ih =>
    obtain ⟨hk, hks⟩ := List.forall_mem_cons.1 hks
    rw [log_cons, log_perform, hk, List.nil_append, ih hks, coordinatorRun,
      Coordinator.log_append, (s.perform_coordinator k).1]

end Session

end Lockstep
