import Lockstep.Proofs.Session.Run
import Lockstep.Session.Link

/-! The way of remote opinions from their senders to the coordinator: each of
them once, in the order of sending, and to the same effect as without the
channel. -/
namespace Lockstep

namespace Session

variable {s : Session} {os : List Opinion}

/-- The calls that do without the inbox what an update does with it. -/
def direct (s : Session) : List Call :=
  s.inbox.queue.map .receive ++ [.coordinate .processPending]

@[simp] theorem coordinatorRun_receives (s : Session) (os : List Opinion) :
    s.coordinatorRun (os.map .receive) = os.map .submit := by
  induction os generalizing s with
  | nil => rfl
  | cons o os ih => simp [coordinatorRun, coordinatorCalls, ih]

theorem coordinatorRun_direct (s : Session) :
    s.coordinatorRun s.direct = s.coordinatorCalls .update := by
  rw [direct, coordinatorRun_append, coordinatorRun_receives]
  rfl

/-- Opinions that are received one by one leave the inbox and the ids alone. -/
theorem after_receives (s : Session) (os : List Opinion) :
    s.after (os.map .receive) =
      { s with coordinator := s.coordinator.after (os.map .submit) } := by
  induction os generalizing s with
  | nil => rfl
  | cons o os ih =>
    rw [List.map_cons, after_cons, ih]
    rfl

theorem after_direct (s : Session) :
    s.after s.direct =
      { s with coordinator := s.coordinator.after (s.coordinatorCalls .update) } := by
  rw [direct, after_append, after_receives, coordinatorCalls, Coordinator.after_append]
  rfl

theorem log_direct (s : Session) :
    s.log s.direct = s.coordinator.log (s.coordinatorCalls .update) := by
  rw [log_run ?_ s, coordinatorRun_direct]
  intro k hk t
  obtain hk | hk := List.mem_append.1 hk
  · obtain ⟨o, -, rfl⟩ := List.mem_map.1 hk
    rfl
  · cases List.mem_singleton.1 hk
    rfl

/-- An update comes to the same as the calls that do without the inbox, and
leaves nothing in it. -/
theorem update_direct (s : Session) :
    s.update.value =
        (⟨s.reports s.direct, (s.reports s.direct).map Report.notice⟩,
          { s.after s.direct with inbox := { s.inbox with queue := [] } }) ∧
      s.update.log = s.log s.direct := by
  obtain ⟨hreports, hafter⟩ := s.update_eq
  have hdirect : s.update.value.1.reports = s.reports s.direct := by
    rw [hreports, (s.run_coordinator s.direct).2, coordinatorRun_direct]
  have hlog := s.log_perform .update
  refine ⟨Prod.ext ?_ ?_, ?_⟩
  · rw [← hdirect]
    rfl
  · rw [hafter, after_direct]
  · rw [log_direct]
    simpa [perform, ownLog] using hlog

/-- Of all calls, only those that send and those that update change the inbox. -/
theorem inbox_perform (s : Session) (k : Call) : (s.perform k).value.2.inbox =
    match k with
    | .send o => (s.inbox.send o).value.2
    | .update => { s.inbox with queue := [] }
    | _ => s.inbox := by
  cases k with
  | finishLocal stop =>
    change (s.finishLocal stop).value.2.inbox = s.inbox
    rw [finishLocal_eq]
  | update => exact congrArg Session.inbox s.update_eq.2
  | _ => rfl

theorem receiving_perform (s : Session) (k : Call) :
    (s.perform k).value.2.inbox.receiving = s.inbox.receiving := by
  rw [inbox_perform]
  cases k with
  | send o => exact s.inbox.receiving_send o
  | _ => rfl

end Session

namespace Link

/-- The opinions that a call puts in the inbox, by its answer. -/
def Call.accepted : Call → Reply → List Opinion
  | .send o, .sent r | .session (.send o), .answered (.sent r) => Channel.added o r
  | _, _ => []

/-- The call is about the way of opinions to the coordinator: no opinion gets
there past the inbox. -/
def Call.HandsOff : Call → Prop
  | .session k =>
    match k with
    | .send _ | .update => True
    | _ => False
  | _ => True

instance (k : Call) : Decidable k.HandsOff := by
  unfold Call.HandsOff
  split
  · split <;> infer_instance
  · infer_instance

variable (l : Link)

/-- The state that a run leads to. -/
def after (ks : List Call) : Link := (Logged.feed perform ks l).value.2

/-- What a call makes of the coordinator. -/
def coordinatorCalls : Call → List Coordinator.Call
  | .session k => l.session?.elim [] (·.coordinatorCalls k)
  | _ => []

/-- The opinions that a call takes from the inbox to submit them. -/
def drained : Call → List Opinion
  | .session .update => Coordinator.submitted (l.coordinatorCalls (.session .update))
  | _ => []

/-- What a run makes of the coordinator. -/
def coordinatorRun (l : Link) : List Call → List Coordinator.Call
  | [] => []
  | k :: ks => l.coordinatorCalls k ++ coordinatorRun (l.perform k).value.2 ks

/-- The opinions that a run accepts for the inbox, in the order of sending. -/
def accepted (l : Link) : List Call → List Opinion
  | [] => []
  | k :: ks => k.accepted (l.perform k).value.1 ++ accepted (l.perform k).value.2 ks

/-- The opinions that a run submits from the inbox, in the order of submission. -/
def delivered (l : Link) : List Call → List Opinion
  | [] => []
  | k :: ks => l.drained k ++ delivered (l.perform k).value.2 ks

variable {l} {k : Call} {ks : List Call} {s : Session}

@[simp] theorem after_nil (l : Link) : l.after [] = l := rfl

@[simp] theorem after_cons (l : Link) (k : Call) (ks : List Call) :
    l.after (k :: ks) = (l.perform k).value.2.after ks := rfl

@[simp] theorem withInbox_self (l : Link) : l.withInbox l.inbox = l := by
  cases l <;> rfl

theorem runs_perform (l : Link) (k : Call) :
    (l.perform k).value.2.session?.isSome = (l.session?.isSome && k != .stop) := by
  cases l <;> cases k <;> rfl

theorem runs_after (l : Link) (ks : List Call) :
    (l.after ks).session?.isSome = (l.session?.isSome && decide (.stop ∉ ks)) := by
  induction ks generalizing l with
  | nil => simp
  | cons k ks ih =>
    rw [after_cons, ih, runs_perform]
    grind

/-- Someone receives as long as the session runs. -/
def Attached (l : Link) : Prop := l.inbox.receiving = l.session?.isSome

theorem attached_perform (h : l.Attached) (k : Call) : (l.perform k).value.2.Attached := by
  cases l with
  | live s =>
    cases k with
    | session k => exact (s.receiving_perform k).trans h
    | send o => exact (s.inbox.receiving_send o).trans h
    | addSender name => exact h
    | dropSender name => exact h
    | stop => rfl
  | stopped inbox =>
    cases k with
    | send o => exact (inbox.receiving_send o).trans h
    | _ => exact h

theorem attached_after (h : l.Attached) (ks : List Call) : (l.after ks).Attached := by
  induction ks generalizing l with
  | nil => exact h
  | cons k ks ih => exact ih (attached_perform h k)

/-- As long as the session runs, what waited and what is accepted is submitted
or goes on waiting, and keeps its order. -/
theorem conserved_perform (l : Link) (hk : k ≠ .stop) :
    l.drained k ++ (l.perform k).value.2.inbox.queue =
      l.inbox.queue ++ k.accepted (l.perform k).value.1 := by
  cases k with
  | session k =>
    cases l with
    | live s =>
      change _ ++ (s.perform k).value.2.inbox.queue = _
      rw [s.inbox_perform]
      cases k with
      | send o => exact s.inbox.queue_send o
      | update => exact congrArg (· ++ []) s.submitted_update
      | _ => exact (List.append_nil _).symm
    | stopped inbox => cases k <;> exact (List.append_nil _).symm
  | send o =>
    cases l with
    | live s => exact s.inbox.queue_send o
    | stopped inbox => exact inbox.queue_send o
  | addSender name => cases l <;> exact (List.append_nil _).symm
  | dropSender name => cases l <;> exact (List.append_nil _).symm
  | stop => exact absurd rfl hk

theorem conserved_run (l : Link) (hks : .stop ∉ ks) :
    l.delivered ks ++ (l.after ks).inbox.queue = l.inbox.queue ++ l.accepted ks := by
  induction ks generalizing l with
  | nil => exact (List.append_nil _).symm
  | cons k ks ih =>
    rw [List.mem_cons, not_or] at hks
    obtain ⟨hk, hks⟩ := hks
    rw [delivered, accepted, after_cons, List.append_assoc, ih _ hks, ← List.append_assoc,
      conserved_perform l (Ne.symm hk), List.append_assoc]

theorem delivered_append (l : Link) (ks js : List Call) :
    l.delivered (ks ++ js) = l.delivered ks ++ (l.after ks).delivered js := by
  induction ks generalizing l with
  | nil => rfl
  | cons k ks ih => simp [delivered, ih]

theorem accepted_append (l : Link) (ks js : List Call) :
    l.accepted (ks ++ js) = l.accepted ks ++ (l.after ks).accepted js := by
  induction ks generalizing l with
  | nil => rfl
  | cons k ks ih => simp [accepted, ih]

/-- Once the session has stopped, nothing is accepted or submitted. -/
theorem idle_perform (h : l.Attached) (hl : l.session?.isSome = false) (k : Call) :
    l.drained k = [] ∧ k.accepted (l.perform k).value.1 = [] := by
  cases l with
  | live s => cases hl
  | stopped inbox =>
    cases k with
    | session k => cases k <;> exact ⟨rfl, rfl⟩
    | send o =>
      refine ⟨rfl, ?_⟩
      change Channel.added o (inbox.send o).value.1 = []
      rw [Channel.value_send, show inbox.receiving = false from h]
      split <;> rfl
    | _ => exact ⟨rfl, rfl⟩

theorem idle_run (h : l.Attached) (hl : l.session?.isSome = false) (ks : List Call) :
    l.delivered ks = [] ∧ l.accepted ks = [] := by
  induction ks generalizing l with
  | nil => exact ⟨rfl, rfl⟩
  | cons k ks ih =>
    obtain ⟨hdrained, haccepted⟩ := idle_perform h hl k
    obtain ⟨hdelivered, hrest⟩ := ih (attached_perform h k) (by rw [runs_perform, hl]; rfl)
    exact ⟨by rw [delivered, hdrained, hdelivered]; rfl, by rw [accepted, haccepted, hrest]; rfl⟩

/-- What is submitted from the inbox is the first part of what was accepted for it. -/
theorem accepted_of_delivered (h : l.Attached) (ks : List Call) :
    l.delivered ks <+: l.inbox.queue ++ l.accepted ks := by
  by_cases hstop : .stop ∈ ks
  · -- What waits at the stop is lost; before it nothing is, and after it nothing moves.
    obtain ⟨pre, post, rfl, hpre⟩ := List.eq_append_cons_of_mem hstop
    have hstopped : ((l.after pre).perform .stop).value.2.session?.isSome = false := by
      rw [runs_perform]
      exact Bool.and_false _
    obtain ⟨hdelivered, haccepted⟩ :=
      idle_run (attached_perform (attached_after h pre) .stop) hstopped post
    rw [delivered_append, accepted_append, delivered, accepted, hdelivered, haccepted]
    exact ⟨(l.after pre).inbox.queue, by simpa [drained, Call.accepted] using conserved_run l hpre⟩
  · exact ⟨(l.after ks).inbox.queue, conserved_run l hstop⟩

/-- As long as the session runs, its coordinator does what the calls come down to. -/
theorem live_perform (s : Session) (hk : k ≠ .stop) :
    ∃ t, ((live s).perform k).value.2 = live t ∧
      t.coordinator = s.coordinator.after ((live s).coordinatorCalls k) := by
  cases k with
  | session k => exact ⟨_, rfl, (s.perform_coordinator k).1⟩
  | stop => exact absurd rfl hk
  | _ => exact ⟨_, rfl, rfl⟩

theorem live_run (s : Session) (hks : .stop ∉ ks) :
    ∃ t, (live s).after ks = live t ∧
      t.coordinator = s.coordinator.after ((live s).coordinatorRun ks) := by
  induction ks generalizing s with
  | nil => exact ⟨s, rfl, rfl⟩
  | cons k ks ih =>
    rw [List.mem_cons, not_or] at hks
    obtain ⟨hk, hks⟩ := hks
    obtain ⟨t, ht, hcoordinator⟩ := live_perform s (Ne.symm hk)
    obtain ⟨u, hu, hrun⟩ := ih t hks
    refine ⟨u, by rw [after_cons, ht, hu], ?_⟩
    rw [hrun, hcoordinator, coordinatorRun, Coordinator.after_append, ht]

/-- What a call takes from the inbox, it submits. -/
theorem drained_sublist (l : Link) (k : Call) :
    (l.drained k).Sublist (Coordinator.submitted (l.coordinatorCalls k)) := by
  cases k with
  | session k =>
    cases k with
    | update => exact List.Sublist.refl _
    | _ => exact List.nil_sublist _
  | _ => exact List.nil_sublist _

theorem drained_handsOff (hk : k.HandsOff) (l : Link) :
    Coordinator.submitted (l.coordinatorCalls k) = l.drained k := by
  cases k with
  | session k =>
    cases k with
    | update => rfl
    | send o => cases l <;> rfl
    | _ => exact absurd hk id
  | _ => rfl

theorem delivered_sublist (l : Link) (ks : List Call) :
    (l.delivered ks).Sublist (Coordinator.submitted (l.coordinatorRun ks)) := by
  induction ks generalizing l with
  | nil => exact List.Sublist.refl _
  | cons k ks ih =>
    rw [delivered, coordinatorRun, Coordinator.submitted_append]
    exact (drained_sublist l k).append (ih _)

theorem delivered_handsOff (hks : ∀ k ∈ ks, k.HandsOff) (l : Link) :
    Coordinator.submitted (l.coordinatorRun ks) = l.delivered ks := by
  induction ks generalizing l with
  | nil => rfl
  | cons k ks ih =>
    obtain ⟨hk, hks⟩ := List.forall_mem_cons.1 hks
    rw [delivered, coordinatorRun, Coordinator.submitted_append, drained_handsOff hk, ih hks]

/-- What a send comes to after a run: local opinions are refused first, then
all that comes after the session has stopped. -/
theorem send_after (h : l.Attached) (hl : l.session?.isSome = true) (ks : List Call)
    (o : Opinion) :
    ((l.after ks).perform (.send o)).value =
      if o.origin.isLocal then (.sent (.error (.localOrigin o.start)), l.after ks)
      else if .stop ∈ ks then (.sent (.error .closed), l.after ks)
      else (.sent (.ok ()), (l.after ks).withInbox
        { (l.after ks).inbox with queue := (l.after ks).inbox.queue ++ [o] }) := by
  have hreceiving : (l.after ks).inbox.receiving = decide (.stop ∉ ks) := by
    rw [attached_after h ks, runs_after, hl, Bool.true_and]
  have hsend : ((l.after ks).perform (.send o)).value =
      (.sent ((l.after ks).inbox.send o).value.1,
        (l.after ks).withInbox ((l.after ks).inbox.send o).value.2) := rfl
  rw [hsend, Channel.value_send, hreceiving]
  by_cases hlocal : o.origin.isLocal = true
  · simp [hlocal]
  · by_cases hstop : .stop ∈ ks
    · simp [hlocal, hstop]
    · simp [hlocal, hstop, hreceiving]

/-- The inbox hands remote opinions on once and in order. An update comes to the
same as to receive what waits, opinion by opinion, and to ask for reports: the
same state but for the emptied inbox, the same reports with their notices, and
the same log. On every run, what is submitted from the inbox is the first part
of what was accepted for it, in the order of sending; nothing else is submitted
if no opinion is brought to the coordinator past the inbox. As long as the
session runs, the rest of what was accepted waits in the inbox. A send fails for
local opinions, and for remote ones once the session has stopped, and if it
fails it changes nothing. -/
theorem handoff_exactly_once :
    (∀ s : Session,
      s.update.value =
          (⟨s.reports s.direct, (s.reports s.direct).map Report.notice⟩,
            { s.after s.direct with inbox := { s.inbox with queue := [] } }) ∧
        s.update.log = s.log s.direct) ∧
      ∀ config ids ks, let l := live (.new config ids)
        l.delivered ks <+: l.accepted ks ∧
          (l.delivered ks).Sublist (Coordinator.submitted (l.coordinatorRun ks)) ∧
          ((∀ k ∈ ks, k.HandsOff) →
            Coordinator.submitted (l.coordinatorRun ks) = l.delivered ks) ∧
          (l.after ks).session?.isSome = decide (.stop ∉ ks) ∧
          (∀ s, l.after ks = live s →
            l.accepted ks = l.delivered ks ++ s.inbox.queue ∧
              s.coordinator = (Coordinator.new config).after (l.coordinatorRun ks)) ∧
          ∀ o, ((l.after ks).perform (.send o)).value =
            if o.origin.isLocal then (.sent (.error (.localOrigin o.start)), l.after ks)
            else if .stop ∈ ks then (.sent (.error .closed), l.after ks)
            else (.sent (.ok ()), (l.after ks).withInbox
              { (l.after ks).inbox with queue := (l.after ks).inbox.queue ++ [o] }) := by
  refine ⟨Session.update_direct, fun config ids ks => ?_⟩
  intro l
  have hattached : l.Attached := rfl
  have hruns : (l.after ks).session?.isSome = decide (.stop ∉ ks) := by
    rw [runs_after]
    rfl
  refine ⟨accepted_of_delivered hattached ks, delivered_sublist l ks,
    (delivered_handsOff · l), hruns, fun s hs => ?_, send_after hattached rfl ks⟩
  have hstop : .stop ∉ ks := by
    rw [hs] at hruns
    exact of_decide_eq_true hruns.symm
  obtain ⟨t, ht, hcoordinator⟩ := live_run (.new config ids) hstop
  cases hs.symm.trans ht
  have hconserved := conserved_run l hstop
  rw [hs] at hconserved
  exact ⟨hconserved.symm, hcoordinator⟩

/-- A drain that desyncs on the first of two opinions, and senders that come and
go until the session stops. -/
theorem handoff_exactly_once_stopped :
    let theirs (t : Tick) : Opinion :=
      { origin := .remote, start := t, stop := some (t + 1), world := [1] }
    let ours : Opinion := { origin := .local, start := 0, stop := some 1, world := [2] }
    let s := (Session.new {} .global).after
      [.receive ours, .send (theirs 0), .send (theirs 1)]
    let l := live (.new {} .global)
    let ks : List Call :=
      [.addSender "b", .send (theirs 0), .dropSender "session", .send (theirs 1),
        .session .update, .send ours, .session (.send (theirs 2))]
    s.inbox.queue = [theirs 0, theirs 1] ∧ s.update.value.2.inbox.queue = [] ∧
      s.update.value.1.reports.length = 1 ∧
      Coordinator.submitted (l.coordinatorRun ks) = [theirs 0, theirs 1] ∧
      l.accepted ks = [theirs 0, theirs 1] ++ [theirs 2] ∧
      ((l.after (ks ++ [.stop])).perform (.send (theirs 3))).value =
        (.sent (.error .closed), l.after (ks ++ [.stop])) := by
  intro theirs ours s l ks
  obtain ⟨hupdate, hlink⟩ := handoff_exactly_once
  obtain ⟨-, -, hdelivered, -, hlive, -⟩ := hlink {} .global ks
  obtain ⟨t, ht⟩ : ∃ t, l.after ks = live t := ⟨_, rfl⟩
  obtain ⟨-, -, -, -, -, hsend⟩ := hlink {} .global (ks ++ [.stop])
  refine ⟨by decide, ?_, ?_, ?_, ?_, ?_⟩
  · rw [(hupdate s).1]
  · rw [(hupdate s).1]
    decide
  · rw [hdelivered (by decide)]
    decide
  · rw [(hlive t ht).1]
    cases ht
    decide
  · rw [hsend]
    rfl

end Link

end Lockstep
