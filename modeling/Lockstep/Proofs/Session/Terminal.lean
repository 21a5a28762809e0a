import Lockstep.Proofs.Coordinator.Halted
import Lockstep.Proofs.Session.Run

/-! The end of a session: a desync is found once, reported once, and nothing
that is called afterwards has an effect on it. -/
namespace Lockstep.Session

variable {s : Session} {k : Call} {ks pre : List Call} {config : Config} {ids : IdBlock}

/-- The call hands out a report if one waits. -/
def Call.Reports : Call → Prop
  | .update | .coordinate .processPending => True
  | _ => False

instance (k : Call) : Decidable k.Reports := by
  unfold Call.Reports
  split <;> infer_instance

/-- A call that reports does so last. -/
theorem coordinatorCalls_of_reports (hk : k.Reports) (s : Session) :
    ∃ ls, s.coordinatorCalls k = ls ++ [.processPending] := by
  cases k with
  | update => exact ⟨_, rfl⟩
  | coordinate j =>
    cases j with
    | processPending => exact ⟨[], rfl⟩
    | _ => exact absurd hk id
  | _ => exact absurd hk id

theorem mem_coordinatorCalls : .processPending ∈ s.coordinatorCalls k ↔ k.Reports := by
  constructor
  · intro h
    cases k with
    | update => trivial
    | coordinate j =>
      cases List.mem_singleton.1 h
      trivial
    | _ => simp [coordinatorCalls] at h
  · intro hk
    obtain ⟨ls, hls⟩ := coordinatorCalls_of_reports hk s
    rw [hls]
    exact List.mem_append_right _ List.mem_cons_self

theorem mem_coordinatorRun (s : Session) (ks : List Call) :
    .processPending ∈ s.coordinatorRun ks ↔ ∃ k ∈ ks, k.Reports := by
  induction ks generalizing s with
  | nil => simp [coordinatorRun]
  | cons k ks ih =>
    rw [coordinatorRun, List.mem_append, mem_coordinatorCalls, ih]
    simp

theorem hasPending_of_reports (hk : k.Reports) (s : Session) :
    (s.perform k).value.2.coordinator.hasPending = false := by
  obtain ⟨ls, hls⟩ := coordinatorCalls_of_reports hk s
  rw [(s.perform_coordinator k).1, hls, Coordinator.after_append]
  exact Coordinator.hasPending_processPending _

theorem quiet_ownLog (s : Session) (k : Call) :
    (s.ownLog k).countP LogEntry.tellsDesync = 0 := by
  cases k with
  | send o =>
    simp only [ownLog, Channel.send_eq]
    split
    · rfl
    · split <;> rfl
  | nextId =>
    simp only [ownLog, IdBlock.draw]
    split <;> rfl
  | _ => rfl

/-- The log of a run tells of a desync as often as an answer does. -/
theorem told_run (s : Session) (ks : List Call) :
    (s.log ks).countP LogEntry.tellsDesync = (s.outcomes ks).count .desynced := by
  induction ks generalizing s with
  | nil => rfl
  | cons k ks ih =>
    rw [log_cons, List.countP_append, ih, log_perform, List.countP_append, quiet_ownLog,
      Nat.zero_add, Coordinator.told_run, ← List.singleton_append, outcomes_append,
      List.count_append]
    simp [outcomes, coordinatorRun]

theorem mem_outcomes : .desynced ∈ (new config ids).outcomes ks ↔
    ((new config ids).after ks).coordinator.desynced = true := by
  rw [((new config ids).run_coordinator ks).1]
  exact Coordinator.mem_outcomes_desynced

theorem halted_of_mem (hks : .desynced ∈ (new config ids).outcomes ks) :
    ((new config ids).after ks).coordinator.Halted := by
  have hd := mem_outcomes.1 hks
  rw [((new config ids).run_coordinator ks).1] at hd ⊢
  exact Coordinator.halted_run hd

/-- The run of the coordinator under a session, seen from its end. -/
theorem judged_run (config : Config) (ids : IdBlock) (ks : List Call) :
    Coordinator.Judged
      ((Coordinator.new config).comparisons ((new config ids).coordinatorRun ks))
      ((new config ids).reports ks) ((new config ids).after ks).coordinator := by
  obtain ⟨hc, hr⟩ := (new config ids).run_coordinator ks
  rw [hc, hr]
  exact Coordinator.judged_run config _

/-- A session that has not desynced has nothing to report. -/
theorem reports_of_not_mem (hks : .desynced ∉ (new config ids).outcomes ks) :
    (new config ids).reports ks = [] := by
  rw [mem_outcomes, Bool.not_eq_true, Coordinator.desynced_eq_false] at hks
  cases judged_run config ids ks with
  | running hp hm hl hr => exact hr
  | ended hms hm hc hl hp => rcases hp with ⟨hp, -⟩ | ⟨hp, -⟩ <;> simp [hp] at hks

/-- The call at which the sides are found to disagree fixes the report. It is
handed out by that call if that call reports, else by the next one that does. -/
theorem reports_once (hpre : .desynced ∉ (new config ids).outcomes pre)
    (hk : .desynced ∈ (new config ids).outcomes (pre ++ [k])) :
    ∃ r : Report, r.lastValid = ((new config ids).after (pre ++ [k])).coordinator.lastValid ∧
      r.arbiterAtLastValid =
        ((new config ids).after (pre ++ [k])).coordinator.arbiterAtLastValid ∧
      ∀ post, (new config ids).reports (pre ++ k :: post) =
        if ∃ j ∈ k :: post, j.Reports then [r] else [] := by
  have hhalted := halted_of_mem hk
  have hsplit : ∀ post, (new config ids).reports (pre ++ k :: post) =
      (new config ids).reports (pre ++ [k]) ++
        if ∃ j ∈ post, j.Reports then
          ((new config ids).after (pre ++ [k])).coordinator.awaited.toList else [] := by
    intro post
    rw [List.append_cons, reports_append, (run_coordinator _ post).2, hhalted.reports]
    simp only [mem_coordinatorRun]
  have hlast : (new config ids).reports (pre ++ [k]) =
      (((new config ids).after pre).perform k).value.1.handedOut := by
    rw [reports_append, reports_of_not_mem hpre, reports_cons]
    simp [reports, Logged.feed]
  cases judged_run config ids (pre ++ [k]) with
  | running hp hm hl hr => exact absurd (hhalted.desynced) (by simp [Coordinator.desynced, hp])
  | @ended c ns hms hm hc hl hp =>
    refine ⟨c.report ((new config ids).after (pre ++ [k])).coordinator.lastValid
      ((new config ids).after (pre ++ [k])).coordinator.arbiterAtLastValid, rfl, rfl, ?_⟩
    intro post
    rw [hsplit post]
    rcases hp with ⟨hp, hr⟩ | ⟨hp, hr⟩
    · have hquiet : ¬ k.Reports := by
        intro hreports
        have hnone := hasPending_of_reports hreports ((new config ids).after pre)
        rw [after_append, after_cons, after_nil] at hp
        simp [Coordinator.hasPending, hp] at hnone
      rw [hr]
      simp [hquiet, Coordinator.awaited, hp]
    · have hreports : k.Reports := by
        by_contra hquiet
        rw [hlast, ((new config ids).after pre).perform_coordinator k |>.2,
          Coordinator.reports_eq_nil (mt mem_coordinatorCalls.1 hquiet)] at hr
        simp at hr
      rw [hr]
      simp [hreports, Coordinator.awaited, hp]

/-- A desync is the end. From the submission on that is answered by it, a
coordinator is inert for good: it ignores what is submitted, records nothing,
hands out no local opinion, and keeps its backlog and what it has confirmed. A
run answers by a desync, and logs one, at most once; and the calls that report
hand out one report between them, fixed by the call that desynced, whatever is
called in between. -/
theorem desync_terminal (config : Config) (ids : IdBlock) :
    (∀ ks o, (((Coordinator.new config).after ks).submit o).value.1 = .desynced → ∀ ls,
        (((Coordinator.new config).after ks).submit o).value.2.Inert
          ((((Coordinator.new config).after ks).submit o).value.2.after ls)) ∧
      (∀ ks, ((new config ids).outcomes ks).count .desynced ≤ 1 ∧
        ((new config ids).log ks).countP LogEntry.tellsDesync =
          ((new config ids).outcomes ks).count .desynced) ∧
      ∀ pre k, .desynced ∉ (new config ids).outcomes pre →
        .desynced ∈ (new config ids).outcomes (pre ++ [k]) →
        (∀ post, let s := (new config ids).after (pre ++ [k])
          s.coordinator.Inert (s.after post).coordinator ∧
            (∀ stop, ((s.after post).finishLocal stop).value.1 = none) ∧
            ∀ r ∈ s.outcomes post, r = .ignored) ∧
        ∃ r : Report,
          r.lastValid = ((new config ids).after (pre ++ [k])).coordinator.lastValid ∧
          r.arbiterAtLastValid =
            ((new config ids).after (pre ++ [k])).coordinator.arbiterAtLastValid ∧
          ∀ post, (new config ids).reports (pre ++ k :: post) =
            if ∃ j ∈ k :: post, j.Reports then [r] else [] := by
  refine ⟨?_, ?_, ?_⟩
  · intro ks o hr ls
    exact (Coordinator.halted_submit hr).inert ls
  · intro ks
    exact ⟨Coordinator.count_desynced_le_one config _, told_run _ ks⟩
  · intro pre k hpre hk
    refine ⟨fun post => ?_, reports_once hpre hk⟩
    have hhalted := halted_of_mem hk
    have hinert : ((new config ids).after (pre ++ [k])).coordinator.Inert
        (((new config ids).after (pre ++ [k])).after post).coordinator := by
      rw [(run_coordinator _ post).1]
      exact hhalted.inert _
    refine ⟨hinert, fun stop => ?_, hhalted.outcomes _⟩
    simp [finishLocal, hinert.takeLocal stop]

/-- A session that desyncs at a local opinion: the arbiter starts to play, the
other side goes on sending, and only then is the one report handed out. -/
theorem desync_terminal_late :
    let theirs : Opinion := { origin := .remote, start := 0, stop := some 1, world := [1] }
    let ours : Opinion := { origin := .local, start := 0, stop := some 1, world := [2] }
    let s := new {} .global
    let pre : List Call := [.receive theirs]
    let k : Call := .coordinate (.submit ours)
    let post : List Call :=
      [.coordinate (.setArbiterPlaying true), .receive theirs, .update, .send theirs, .update]
    .desynced ∉ s.outcomes pre ∧ .desynced ∈ s.outcomes (pre ++ [k]) ∧
      (s.after (pre ++ [k])).coordinator.Inert ((s.after (pre ++ [k])).after post).coordinator ∧
      ∃ r : Report, r.arbiterAtLastValid = false ∧ s.reports (pre ++ k :: post) = [r] := by
  intro theirs ours s pre k post
  have hpre : .desynced ∉ s.outcomes pre := by decide
  have hk : .desynced ∈ s.outcomes (pre ++ [k]) := by decide
  obtain ⟨-, -, hend⟩ := desync_terminal {} .global
  obtain ⟨hafter, r, -, harbiter, hr⟩ := hend pre k hpre hk
  obtain ⟨hinert, -, -⟩ := hafter post
  refine ⟨hpre, hk, hinert, r, harbiter.trans rfl, ?_⟩
  exact (hr post).trans (if_pos ⟨.update, by decide, trivial⟩)

end Lockstep.Session
