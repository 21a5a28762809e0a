import Lockstep.Proofs.Coordinator.Simulation
import Lockstep.Proofs.Session.Run

/-! Two sessions that get corresponding calls. What two coordinators keep of
one another, the sessions around them keep as well. -/
namespace Lockstep.Session

variable {L : Likeness} {S : Coordinator → Coordinator → Prop}

/-- The same answer, but for opinions, reports and notices that are only alike. -/
inductive Reply.Like (L : Likeness) : Reply → Reply → Prop
  | coordinated {r t : Coordinator.Reply} (h : r.Like L t) :
      Like L (.coordinated r) (.coordinated t)
  | sent (r : Except HandoffError Unit) : Like L (.sent r) (.sent r)
  | received (r : Outcome) : Like L (.received r) (.received r)
  | finished {o p : Option Opinion} (h : Option.Rel L.opinion o p) :
      Like L (.finished o) (.finished p)
  | events {e f : Events} (hreports : List.Forall₂ L.report e.reports f.reports)
      (hnotices : List.Forall₂ L.notice e.notices f.notices) : Like L (.events e) (.events f)
  | id (r : Except IdBlock.Exhausted EntityId) : Like L (.id r) (.id r)

/-- The same call, but for opinions that are only alike. -/
inductive Call.Like (L : Likeness) : Call → Call → Prop
  | same (k : Call) : Like L k k
  | coordinate {j m : Coordinator.Call} (h : j.Like L m) : Like L (.coordinate j) (.coordinate m)
  | send {a b : Opinion} (h : L.opinion a b) : Like L (.send a) (.send b)
  | receive {a b : Opinion} (h : L.opinion a b) : Like L (.receive a) (.receive b)

/-- Two sessions with related coordinators, corresponding opinions in their
inboxes, and all else the same. -/
structure Related (L : Likeness) (S : Coordinator → Coordinator → Prop) (s t : Session) :
    Prop where
  coordinator : S s.coordinator t.coordinator
  senders : s.inbox.senders = t.inbox.senders
  receiving : s.inbox.receiving = t.inbox.receiving
  queue : List.Forall₂ L.opinion s.inbox.queue t.inbox.queue
  ids : s.ids = t.ids

/-- Alike answers, and sessions that are still related. -/
def Answers (L : Likeness) (S : Coordinator → Coordinator → Prop) (x y : Reply × Session) : Prop :=
  x.1.Like L y.1 ∧ x.2.Related L S y.2

/-- Two calls bring about the same outcomes, get alike answers, and leave the
sessions related. -/
structure Matched (L : Likeness) (S : Coordinator → Coordinator → Prop) (s t : Session)
    (k l : Call) : Prop where
  answers : (s.perform k).Like (Answers L S) (t.perform l)
  outcomes : s.coordinator.outcomes (s.coordinatorCalls k) =
    t.coordinator.outcomes (t.coordinatorCalls l)

variable {s t : Session} {c d : Coordinator} {a b : Opinion} {as bs : List Opinion}
  {j m : Coordinator.Call} {k l : Call} {stop : Tick}

theorem Related.withCoordinator (h : s.Related L S t) (hcd : S c d) :
    { s with coordinator := c }.Related L S { t with coordinator := d } :=
  ⟨hcd, h.senders, h.receiving, h.queue, h.ids⟩

theorem Related.send (h : s.Related L S t) (hab : L.opinion a b) :
    s.Matched L S t (.send a) (.send b) := by
  refine ⟨?_, rfl⟩
  have hdraws := L.sameDraws hab
  simp only [perform, Session.send, Channel.send_eq, hdraws.origin, hdraws.start, h.receiving]
  split
  · exact Logged.like_pure ⟨.sent _, h⟩
  split
  · refine Logged.like_pure ⟨.sent _, h.coordinator, h.senders, rfl, ?_, h.ids⟩
    exact List.rel_append h.queue (.cons hab .nil)
  · exact ⟨⟨.sent _, h⟩, rfl⟩

theorem Related.nextId (h : s.Related L S t) : s.Matched L S t .nextId .nextId := by
  refine ⟨?_, rfl⟩
  simp only [perform, Session.nextId, h.ids]
  exact ⟨⟨.id _, h.coordinator, h.senders, h.receiving, h.queue, rfl⟩, rfl⟩

/-- Alike answers show the same outcome, if any. -/
theorem outcome?_eq {r r' : Coordinator.Reply} (h : r.Like L r') : r.outcome? = r'.outcome? := by
  cases h <;> rfl

/-- A call on the coordinator matches if the coordinators answer it alike. -/
theorem Related.coordinate (h : s.Related L S t)
    (hjm : (s.coordinator.perform j).Like (Coordinator.Answers L S) (t.coordinator.perform m)) :
    s.Matched L S t (.coordinate j) (.coordinate m) where
  answers := hjm.bind fun hxy =>
    Logged.like_pure ⟨.coordinated hxy.1, h.withCoordinator hxy.2⟩
  outcomes := by
    rw [coordinatorCalls, coordinatorCalls, Coordinator.outcomes_cons,
      Coordinator.outcomes_cons, outcome?_eq hjm.1.1]
    rfl

/-- If calls that correspond match, so do runs of them: they get alike answers,
bring about the same outcomes, log the same but for what is said of the pool,
and leave the sessions related. -/
theorem Related.run {K : Call → Call → Prop} {ks ls : List Call}
    (hK : ∀ {s t : Session} {k l : Call}, s.Related L S t → K k l → s.Matched L S t k l)
    (h : s.Related L S t) (hk : List.Forall₂ K ks ls) :
    List.Forall₂ (Reply.Like L) (s.replies ks) (t.replies ls) ∧
      s.outcomes ks = t.outcomes ls ∧ visible (s.log ks) = visible (t.log ls) ∧
      (s.after ks).Related L S (t.after ls) := by
  obtain ⟨⟨hreplies, hafter⟩, hlog⟩ := Logged.like_feed (S := Related L S)
    (A := Reply.Like L) (f := Session.perform) (g := Session.perform)
    (fun h hk => (hK h hk).answers) hk h
  refine ⟨hreplies, ?_, hlog, hafter⟩
  clear hreplies hafter hlog
  induction hk generalizing s t with
  | nil => rfl
  | cons hk _ ih =>
    obtain ⟨⟨hanswers, -⟩, houtcomes⟩ := hK h hk
    rw [outcomes_cons, outcomes_cons, houtcomes, ih hanswers.2]

variable (sim : Coordinator.Simulation L S)
include sim

theorem like_submitAll (hcd : S c d) (hab : List.Forall₂ L.opinion as bs) :
    (c.submitAll as).Like (fun x y => List.Forall₂ Eq x.1 y.1 ∧ S x.2 y.2) (d.submitAll bs) :=
  Logged.like_feed sim.submit hab hcd

theorem outcomes_submits_eq (hcd : S c d) (hab : List.Forall₂ L.opinion as bs) :
    c.outcomes (as.map .submit) = d.outcomes (bs.map .submit) := by
  rw [Coordinator.outcomes_submits, Coordinator.outcomes_submits]
  have heq := (like_submitAll sim hcd hab).1.1
  rwa [List.forall₂_eq_eq_eq] at heq

theorem Related.receive (h : s.Related L S t) (hab : L.opinion a b) :
    s.Matched L S t (.receive a) (.receive b) := by
  refine ⟨?_, outcomes_submits_eq sim h.coordinator (.cons hab .nil)⟩
  rw [perform, perform, Session.receive, Session.receive]
  refine Logged.Like.bind (Q := fun x y => x.1 = y.1 ∧ x.2.Related L S y.2) ?_ fun hxy => ?_
  · refine (sim.submit h.coordinator hab).bind fun hxy => ?_
    exact Logged.like_pure ⟨hxy.1, h.withCoordinator hxy.2⟩
  · refine Logged.like_pure ⟨?_, hxy.2⟩
    rw [hxy.1]
    exact .received _

theorem Related.update (h : s.Related L S t) : s.Matched L S t .update .update where
  answers := by
    rw [perform, perform, Session.update, Session.update, Channel.drain_eq, Channel.drain_eq]
    refine Logged.Like.bind (Q := fun x y => Reply.Like L (.events x.1) (.events y.1) ∧
      x.2.Related L S y.2) ?_ fun hxy => Logged.like_pure ⟨hxy.1, hxy.2⟩
    refine (like_submitAll sim h.coordinator h.queue).bind fun hxy => ?_
    obtain ⟨hreports, hstate⟩ := sim.processPending hxy.2
    refine Logged.like_pure ⟨.events hreports ?_, ?_⟩
    · exact List.rel_map (P := L.notice) (fun _ _ h => L.notices h) hreports
    · exact ⟨hstate, h.senders, h.receiving, .nil, h.ids⟩
  outcomes := by
    rw [coordinatorCalls, coordinatorCalls, Coordinator.outcomes_append,
      Coordinator.outcomes_append, outcomes_submits_eq sim h.coordinator h.queue]
    rfl

/-- Closing an opinion matches if the coordinators hand out alike ones. -/
theorem Related.finishLocal (h : s.Related L S t)
    (htake : (s.coordinator.takeLocal stop).Like (Coordinator.HandOuts L S)
      (t.coordinator.takeLocal stop)) :
    s.Matched L S t (.finishLocal stop) (.finishLocal stop) where
  answers := by
    rw [perform, perform, Session.finishLocal, Session.finishLocal]
    refine Logged.Like.bind (Q := fun x y => Option.Rel L.opinion x.1 y.1 ∧
      x.2.Related L S y.2) ?_ fun hxy => Logged.like_pure ⟨.finished hxy.1, hxy.2⟩
    refine htake.bind fun {x y} hxy => ?_
    obtain ⟨hopinion, hstate⟩ := hxy
    obtain ⟨o, c⟩ := x
    obtain ⟨p, d⟩ := y
    cases hopinion with
    | none => exact Logged.like_pure ⟨.none, h.withCoordinator hstate⟩
    | some hop =>
      refine (sim.submit hstate hop).bind fun hxy => ?_
      refine Logged.like_pure ⟨?_, h.withCoordinator hxy.2⟩
      rw [hxy.1]
      split
      · exact .none
      · exact .some hop
  outcomes := by
    obtain ⟨hopinion, hstate⟩ := htake.1
    rw [coordinatorCalls, coordinatorCalls, Coordinator.outcomes_cons, Coordinator.outcomes_cons]
    refine congrArg _ (outcomes_submits_eq sim hstate ?_)
    generalize (s.coordinator.takeLocal stop).value.1 = o,
      (t.coordinator.takeLocal stop).value.1 = p at hopinion
    cases hopinion with
    | none => exact .nil
    | some hop => exact .cons hop .nil

/-- Corresponding calls match, if the coordinators answer alike what is asked of
them directly and hand out alike opinions. -/
theorem Related.perform (h : s.Related L S t) (hk : k.Like L l)
    (hcoordinate : ∀ {j m}, k = .coordinate j → l = .coordinate m → j.Like L m →
      (s.coordinator.perform j).Like (Coordinator.Answers L S) (t.coordinator.perform m))
    (htake : ∀ {stop}, k = .finishLocal stop → (s.coordinator.takeLocal stop).Like
      (Coordinator.HandOuts L S) (t.coordinator.takeLocal stop)) :
    s.Matched L S t k l := by
  cases hk with
  | coordinate hjm => exact h.coordinate (hcoordinate rfl rfl hjm)
  | send hab => exact h.send hab
  | receive hab => exact h.receive sim hab
  | same k =>
    cases k with
    | coordinate j => exact h.coordinate (hcoordinate rfl rfl (.same j))
    | send o => exact h.send (L.refl o)
    | receive o => exact h.receive sim (L.refl o)
    | finishLocal stop => exact h.finishLocal sim (htake rfl)
    | update => exact h.update sim
    | nextId => exact h.nextId

end Lockstep.Session
