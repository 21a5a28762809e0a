import Lockstep.Proofs.Coordinator.Logging
import Lockstep.Proofs.Coordinator.Verdict

/-! What a desync leaves behind: a coordinator that no call moves any more, and
one report that waits to be handed out. -/
namespace Lockstep

/-- The entry tells of a desync. -/
def LogEntry.tellsDesync : LogEntry → Bool
  | .desynced .. => true
  | _ => false

/-- What the log says of the pool is nothing about a desync. -/
theorem countP_visible (log : List LogEntry) :
    (visible log).countP LogEntry.tellsDesync = log.countP LogEntry.tellsDesync := by
  rw [visible, List.countP_filter]
  refine List.countP_congr fun e _ => ?_
  cases e <;> simp [LogEntry.tellsDesync, LogEntry.aboutPool]

namespace Coordinator

variable {c d : Coordinator} {k : Call} {ks : List Call} {o : Opinion} {r : Outcome}

/-- A desync has been found, and with it recording and catching up have stopped. -/
structure Halted (c : Coordinator) : Prop where
  desynced : c.desynced = true
  current : c.current = none
  catchUpTarget : c.catchUpTarget = none

/-- What stays in place once a coordinator has halted. -/
structure Keeps (c d : Coordinator) : Prop where
  backlog : d.backlog = c.backlog
  lastValid : d.lastValid = c.lastValid
  arbiterAtLastValid : d.arbiterAtLastValid = c.arbiterAtLastValid

theorem Keeps.refl (c : Coordinator) : c.Keeps c := ⟨rfl, rfl, rfl⟩

theorem Keeps.trans {e : Coordinator} (h : c.Keeps d) (h' : d.Keeps e) : c.Keeps e :=
  ⟨h'.backlog.trans h.backlog, h'.lastValid.trans h.lastValid,
    h'.arbiterAtLastValid.trans h.arbiterAtLastValid⟩

/-- The coordinator `d` answers nothing any more and still holds what `c` held. -/
structure Inert (c d : Coordinator) : Prop extends c.Keeps d, d.Halted where
  submit : ∀ o, (d.submit o).value.1 = .ignored
  takeLocal : ∀ stop, d.takeLocal stop = pure (none, d)
  startCatchUp : ∀ target, d.startCatchUp target = d
  addState : ∀ tick category s, d.addState tick category s = d
  addInfo : ∀ tick subject detail, d.addInfo tick subject detail = d
  addCall : ∀ tick e depth site, d.addCall tick e depth site = d

/-- The report of a conflict that has none yet. -/
def awaited (c : Coordinator) : Option Report :=
  match c.phase with
  | .conflict k => some (k.report c.lastValid c.arbiterAtLastValid)
  | .running | .reported => none

theorem processPending_eq (c : Coordinator) : c.processPending.1 = c.awaited.toList := by
  rw [processPending, awaited]
  split <;> simp_all

theorem awaited_processPending (c : Coordinator) : c.processPending.2.awaited = none := by
  rw [processPending]
  split <;> simp_all [awaited]

theorem keeps_processPending (c : Coordinator) : c.Keeps c.processPending.2 := by
  rw [processPending]
  split <;> exact ⟨rfl, rfl, rfl⟩

namespace Halted

variable (h : c.Halted)
include h

theorem collecting : c.collecting = false := by
  simp [Coordinator.collecting, h.desynced]

theorem record (tick : Tick) (write : Opinion → Opinion) : c.record tick write = c := by
  rw [Coordinator.record, h.collecting]
  rfl

theorem addCall (tick : Tick) (e : CallEntry) (depth : UInt32) (site : TraceHash) :
    c.addCall tick e depth site = c := by
  rw [Coordinator.addCall]
  split
  · exact h.record tick _
  · rfl

theorem startCatchUp (target : Tick) : c.startCatchUp target = c := by
  rw [Coordinator.startCatchUp, if_pos h.desynced]

theorem takeLocal (stop : Tick) : c.takeLocal stop = pure (none, c) := by
  rw [Coordinator.takeLocal, h.current]

theorem submit (o : Opinion) :
    (c.submit o).value = (.ignored, { c with pool := (c.pool.release o).value }) := by
  rw [Coordinator.submit, if_pos h.desynced]
  rfl

theorem processPending : c.processPending.2.Halted := by
  have hd := h.desynced
  rw [← desynced_processPending c] at hd
  refine ⟨hd, (current_processPending c).trans h.current, ?_⟩
  rw [Coordinator.processPending]
  split <;> exact h.catchUpTarget

/-- A call leaves a halted coordinator halted. It changes nothing but what the
pool holds, the arbiter's state of the moment, and whether the report is out. -/
theorem perform (k : Call) :
    (c.perform k).value.2.Halted ∧ c.Keeps (c.perform k).value.2 ∧
      (k ≠ .processPending → (c.perform k).value.2.awaited = c.awaited ∧
        (c.perform k).value.1.handedOut = []) := by
  cases k with
  | addState tick j s =>
    have he : (c.perform (.addState tick j s)).value.2 = c :=
      h.record tick (·.recordState j s)
    rw [he]
    exact ⟨h, .refl c, fun _ => ⟨rfl, rfl⟩⟩
  | addInfo tick subject detail =>
    have he : (c.perform (.addInfo tick subject detail)).value.2 = c :=
      h.record tick (·.logEntry (.info ⟨tick, subject, detail⟩))
    rw [he]
    exact ⟨h, .refl c, fun _ => ⟨rfl, rfl⟩⟩
  | addCall tick e depth site =>
    have he : (c.perform (.addCall tick e depth site)).value.2 = c := h.addCall tick e depth site
    rw [he]
    exact ⟨h, .refl c, fun _ => ⟨rfl, rfl⟩⟩
  | startCatchUp target =>
    have he : (c.perform (.startCatchUp target)).value.2 = c := h.startCatchUp target
    rw [he]
    exact ⟨h, .refl c, fun _ => ⟨rfl, rfl⟩⟩
  | finishCatchUp => exact ⟨⟨h.desynced, h.current, rfl⟩, ⟨rfl, rfl, rfl⟩, fun _ => ⟨rfl, rfl⟩⟩
  | setArbiterPlaying playing =>
    exact ⟨⟨h.desynced, h.current, h.catchUpTarget⟩, ⟨rfl, rfl, rfl⟩, fun _ => ⟨rfl, rfl⟩⟩
  | takeLocal stop =>
    have he : (c.perform (.takeLocal stop)).value.2 = c := by
      simp [Coordinator.perform, h.takeLocal stop]
    rw [he]
    exact ⟨h, .refl c, fun _ => ⟨rfl, rfl⟩⟩
  | submit o =>
    have he : (c.perform (.submit o)).value.2 = { c with pool := (c.pool.release o).value } := by
      rw [perform_submit, h.submit o]
    rw [he]
    exact ⟨⟨h.desynced, h.current, h.catchUpTarget⟩, ⟨rfl, rfl, rfl⟩, fun _ => ⟨rfl, rfl⟩⟩
  | processPending => exact ⟨h.processPending, keeps_processPending c, fun hne => absurd rfl hne⟩

theorem after (ks : List Call) : (c.after ks).Halted ∧ c.Keeps (c.after ks) := by
  induction ks generalizing c with
  | nil => exact ⟨h, .refl c⟩
  | cons k ks ih =>
    obtain ⟨hstep, hkeeps, -⟩ := h.perform k
    obtain ⟨hend, hkept⟩ := ih hstep
    exact ⟨hend, hkeeps.trans hkept⟩

theorem inert (ks : List Call) : c.Inert (c.after ks) := by
  obtain ⟨hend, hkept⟩ := h.after ks
  refine ⟨hkept, hend, fun o => ?_, hend.takeLocal, hend.startCatchUp, ?_, ?_, hend.addCall⟩
  · rw [hend.submit o]
  · exact fun tick category s => hend.record tick _
  · exact fun tick subject detail => hend.record tick _

theorem outcomes (ks : List Call) : ∀ r ∈ c.outcomes ks, r = .ignored := by
  induction ks generalizing c with
  | nil => simp [Coordinator.outcomes]
  | cons k ks ih =>
    intro r hr
    rw [outcomes_cons] at hr
    rcases List.mem_append.1 hr with hr | hr
    · cases k with
      | submit o => simpa [h.submit o, Reply.outcome?] using hr
      | _ => simp [Coordinator.perform, Reply.outcome?] at hr
    · exact ih (h.perform k).1 r hr

/-- The report that waits is handed out once, as it is, whatever else is called. -/
theorem reports (ks : List Call) :
    c.reports ks = if .processPending ∈ ks then c.awaited.toList else [] := by
  induction ks generalizing c with
  | nil => rfl
  | cons k ks ih =>
    obtain ⟨hstep, -, hquiet⟩ := h.perform k
    rw [reports_cons, ih hstep]
    by_cases hk : k = .processPending
    · subst k
      simp [Reply.handedOut, processPending_eq, awaited_processPending]
    · obtain ⟨hawaited, hnone⟩ := hquiet hk
      rw [hawaited, hnone]
      simp [Ne.symm hk]

end Halted

/-- A coordinator that has desynced has halted. -/
theorem halted_perform (hc : c.desynced = true → c.Halted) (k : Call)
    (hd : (c.perform k).value.2.desynced = true) : (c.perform k).value.2.Halted := by
  by_cases hcd : c.desynced = true
  · exact ((hc hcd).perform k).1
  · by_cases ho : k.opinion? = none
    · by_cases hp : k = .processPending
      · subst k
        simp [hcd] at hd
      · obtain ⟨-, -, current, pool, arbiterPlaying, catchUpTarget, he⟩ :=
          perform_aside (c := c) ho hp
        rw [he] at hd
        exact absurd hd hcd
    · cases k with
      | submit o =>
        rw [perform_submit] at hd ⊢
        have hs := c.submission o
        generalize c.counterpart? o = met at hs
        generalize (c.submit o).value.1 = r at hs
        generalize (c.submit o).value.2 = c' at hs hd
        cases hs with
        | disagreeing => exact ⟨rfl, rfl, rfl⟩
        | _ => exact absurd hd hcd
      | _ => exact absurd rfl ho

theorem halted_run {config : Config} (hd : ((new config).after ks).desynced = true) :
    ((new config).after ks).Halted := by
  induction ks using List.reverseRecOn with
  | nil => cases hd
  | append_singleton ks k ih =>
    rw [after_append, after_cons, after_nil] at hd ⊢
    exact halted_perform ih k hd

/-- A run answers that the sides have desynced where a comparison disagrees. -/
theorem count_desynced_outcomes (c : Coordinator) (ks : List Call) :
    (c.outcomes ks).count .desynced = (c.comparisons ks).countP (¬ ·.Agrees) := by
  have hverdict : (c.outcomes ks).count .desynced =
      ((c.outcomes ks).filter (·.IsVerdict)).count .desynced := by
    rw [List.count_filter]
    rfl
  rw [hverdict, verdicts_eq, List.count, List.countP_map]
  congr 1
  funext m
  by_cases hm : m.Agrees <;> simp [Comparison.outcome, hm]

/-- The sides are found to disagree at most once. -/
theorem count_desynced_le_one (config : Config) (ks : List Call) :
    ((new config).outcomes ks).count .desynced ≤ 1 := by
  rw [count_desynced_outcomes]
  cases judged_run config ks with
  | running hp hm hl hr =>
    rw [List.countP_eq_zero.2]
    · exact Nat.zero_le 1
    · simpa using hm
  | @ended k ns hms hm hc hl hp =>
    have hns : ns.countP (¬ ·.Agrees) = 0 := by
      rw [List.countP_eq_zero]
      simpa using hm
    rw [hms, List.countP_append, hns, Nat.zero_add]
    exact List.countP_le_length

theorem mem_outcomes_desynced {config : Config} :
    .desynced ∈ (new config).outcomes ks ↔ ((new config).after ks).desynced = true := by
  rw [← List.count_pos_iff, count_desynced_outcomes, List.countP_pos_iff,
    ← Bool.not_eq_false, desynced_run_eq_false]
  simp

/-- What disagrees halts the coordinator there and then. -/
theorem halted_submit (hr : (c.submit o).value.1 = .desynced) : (c.submit o).value.2.Halted := by
  have hs := c.submission o
  rw [hr] at hs
  generalize c.counterpart? o = met at hs
  generalize (c.submit o).value.2 = c' at hs
  cases hs with
  | disagreeing => exact ⟨rfl, rfl, rfl⟩

/-- Reports are handed out on demand alone. -/
theorem reports_eq_nil (hks : .processPending ∉ ks) (c : Coordinator) : c.reports ks = [] := by
  induction ks generalizing c with
  | nil => rfl
  | cons k ks ih =>
    obtain ⟨hk, hks⟩ := not_or.1 (mt List.mem_cons.2 hks)
    rw [reports_cons, ih hks, List.append_nil]
    cases k with
    | processPending => exact absurd rfl hk
    | _ => rfl

/-- A submission logs a desync where it is answered by one. -/
theorem told_submit (c : Coordinator) (o : Opinion) :
    (c.submit o).log.countP LogEntry.tellsDesync =
      [(c.submit o).value.1].count .desynced := by
  have hlost : ((c.lost o).map Opinion.evictionEntry).countP LogEntry.tellsDesync = 0 := by
    rw [List.countP_map, List.countP_eq_zero]
    intro w _
    exact Bool.false_ne_true
  rw [← countP_visible, visible_submit, List.countP_append, hlost, Nat.zero_add, told]
  have hs := c.submission o
  cases hmet : c.counterpart? o with
  | none =>
    rw [hmet] at hs
    generalize (c.submit o).value.1 = r, (c.submit o).value.2 = c' at hs ⊢
    cases hs <;> rfl
  | some w =>
    rw [hmet] at hs
    obtain ⟨-, -, -, -, -, -, -, -, -, hr⟩ := met_submission hs
    simp only [hr, verdictEntries]
    cases w.disagreement? o with
    | none => rfl
    | some cause => cases cause <;> rfl

/-- The log of a run tells of a desync as often as an answer does. -/
theorem told_run (c : Coordinator) (ks : List Call) :
    (c.log ks).countP LogEntry.tellsDesync = (c.outcomes ks).count .desynced := by
  induction ks generalizing c with
  | nil => rfl
  | cons k ks ih =>
    rw [log_cons, outcomes_cons, List.countP_append, List.count_append, ih]
    congr 1
    cases ho : k.opinion? with
    | none =>
      rw [← countP_visible, visible_perform ho]
      cases k with
      | submit o => cases ho
      | _ => rfl
    | some o =>
      obtain rfl := eq_submit ho
      simpa [perform, Reply.outcome?] using c.told_submit o

end Coordinator

end Lockstep
