import Lockstep.Coordinator.Call
import Lockstep.Proofs.Coordinator.Submission
import Mathlib.Data.List.Induction

/-! Runs of calls on a coordinator: what is submitted, compared and reported on the way. -/
namespace Lockstep

/-- A waiting opinion and the later one that it is compared with. -/
structure Comparison where
  earlier : Opinion
  later : Opinion
deriving DecidableEq

namespace Comparison

def Agrees (m : Comparison) : Prop := m.earlier.disagreement? m.later = none

instance (m : Comparison) : Decidable m.Agrees :=
  inferInstanceAs (Decidable (_ = none))

/-- The answer to the submission that brings the comparison about. -/
def outcome (m : Comparison) : Outcome :=
  if m.Agrees then .confirmed m.earlier.start else .desynced

end Comparison

/-- The outcome tells of a comparison. -/
def Outcome.IsVerdict : Outcome → Prop
  | .confirmed _ | .desynced => True
  | .ignored | .queued | .discarded => False

instance (r : Outcome) : Decidable r.IsVerdict := by
  cases r <;> unfold Outcome.IsVerdict <;> infer_instance

namespace Coordinator

/-- The opinion that a call submits. -/
def Call.opinion? : Call → Option Opinion
  | .submit o => some o
  | _ => none

def Reply.outcome? : Reply → Option Outcome
  | .outcome r => some r
  | _ => none

def Reply.handedOut : Reply → List Report
  | .reports rs => rs
  | _ => []

/-- The opinions that a list of calls submits, in order. -/
def submitted (ks : List Call) : List Opinion := ks.filterMap Call.opinion?

variable (c : Coordinator)

/-- The state that a run leads to. -/
def after (ks : List Call) : Coordinator := (Logged.feed perform ks c).value.2

/-- The answers that a run gives. -/
def replies (ks : List Call) : List Reply := (Logged.feed perform ks c).value.1

def outcomes (ks : List Call) : List Outcome := (c.replies ks).filterMap Reply.outcome?

/-- What a run logs. -/
def log (ks : List Call) : List LogEntry := (Logged.feed perform ks c).log

/-- The reports that a run hands out. -/
def reports (ks : List Call) : List Report := (c.replies ks).flatMap Reply.handedOut

/-- The comparison that a call brings about. -/
def comparison? : Call → Option Comparison
  | .submit o => (c.counterpart? o).map (⟨·, o⟩)
  | _ => none

/-- The comparisons that a run makes, in order. -/
def comparisons (c : Coordinator) : List Call → List Comparison
  | [] => []
  | k :: ks => (c.comparison? k).toList ++ comparisons (c.perform k).value.2 ks

variable {c} {k : Call} {ks ls : List Call} {m : Comparison} {o : Opinion}

@[simp] theorem after_nil (c : Coordinator) : c.after [] = c := rfl

@[simp] theorem after_cons (c : Coordinator) (k : Call) (ks : List Call) :
    c.after (k :: ks) = (c.perform k).value.2.after ks := rfl

theorem after_append (c : Coordinator) (ks ls : List Call) :
    c.after (ks ++ ls) = (c.after ks).after ls := by
  simp [after, Logged.feed_append]

@[simp] theorem replies_nil (c : Coordinator) : c.replies [] = [] := rfl

@[simp] theorem replies_cons (c : Coordinator) (k : Call) (ks : List Call) :
    c.replies (k :: ks) = (c.perform k).value.1 :: (c.perform k).value.2.replies ks := rfl

theorem replies_append (c : Coordinator) (ks ls : List Call) :
    c.replies (ks ++ ls) = c.replies ks ++ (c.after ks).replies ls := by
  simp [replies, after, Logged.feed_append]

@[simp] theorem log_nil (c : Coordinator) : c.log [] = [] := rfl

theorem log_cons (c : Coordinator) (k : Call) (ks : List Call) :
    c.log (k :: ks) = (c.perform k).log ++ (c.perform k).value.2.log ks := by
  simp [log, Logged.feed]

theorem log_append (c : Coordinator) (ks ls : List Call) :
    c.log (ks ++ ls) = c.log ks ++ (c.after ks).log ls := by
  simp [log, after, Logged.feed_append]

theorem outcomes_cons (c : Coordinator) (k : Call) (ks : List Call) :
    c.outcomes (k :: ks) =
      (c.perform k).value.1.outcome?.toList ++ (c.perform k).value.2.outcomes ks := by
  cases h : (c.perform k).value.1.outcome? <;> simp [outcomes, h]

theorem outcomes_append (c : Coordinator) (ks ls : List Call) :
    c.outcomes (ks ++ ls) = c.outcomes ks ++ (c.after ks).outcomes ls := by
  simp [outcomes, replies_append]

@[simp] theorem reports_nil (c : Coordinator) : c.reports [] = [] := rfl

theorem reports_cons (c : Coordinator) (k : Call) (ks : List Call) :
    c.reports (k :: ks) =
      (c.perform k).value.1.handedOut ++ (c.perform k).value.2.reports ks := by
  simp [reports]

theorem reports_append (c : Coordinator) (ks ls : List Call) :
    c.reports (ks ++ ls) = c.reports ks ++ (c.after ks).reports ls := by
  simp [reports, replies_append]

@[simp] theorem submitted_nil : submitted [] = [] := rfl

theorem submitted_append (ks ls : List Call) :
    submitted (ks ++ ls) = submitted ks ++ submitted ls :=
  List.filterMap_append

theorem submitted_cons (k : Call) (ks : List Call) :
    submitted (k :: ks) = k.opinion?.toList ++ submitted ks := by
  cases h : k.opinion? <;> simp [submitted, h]

/-- Only a submission brings an opinion. -/
theorem eq_submit (ho : k.opinion? = some o) : k = .submit o := by
  cases k with
  | submit _ => exact congrArg Call.submit (Option.some.inj ho)
  | _ => cases ho

theorem mem_submitted : o ∈ submitted ks ↔ .submit o ∈ ks := by
  rw [submitted, List.mem_filterMap]
  constructor
  · rintro ⟨k, hk, ho⟩
    exact eq_submit ho ▸ hk
  · intro h
    exact ⟨_, h, rfl⟩

@[simp] theorem perform_submit (c : Coordinator) (o : Opinion) :
    (c.perform (.submit o)).value = (.outcome (c.submit o).value.1, (c.submit o).value.2) := rfl

@[simp] theorem perform_processPending (c : Coordinator) :
    (c.perform .processPending).value = (.reports c.processPending.1, c.processPending.2) := rfl

theorem after_submits (c : Coordinator) (os : List Opinion) :
    c.after (os.map .submit) = (c.submitAll os).value.2 := by
  induction os generalizing c with
  | nil => rfl
  | cons o os ih =>
    rw [List.map_cons, after_cons, ih]
    rfl

@[simp] theorem reports_submits (c : Coordinator) (os : List Opinion) :
    c.reports (os.map .submit) = [] := by
  induction os generalizing c with
  | nil => rfl
  | cons o os ih =>
    rw [List.map_cons, reports_cons, ih]
    rfl

theorem outcomes_submits (c : Coordinator) (os : List Opinion) :
    c.outcomes (os.map .submit) = (c.submitAll os).value.1 := by
  induction os generalizing c with
  | nil => rfl
  | cons o os ih =>
    rw [List.map_cons, outcomes_cons, ih]
    rfl

theorem log_submits (c : Coordinator) (os : List Opinion) :
    c.log (os.map .submit) = (c.submitAll os).log := by
  induction os generalizing c with
  | nil => rfl
  | cons o os ih =>
    rw [List.map_cons, log_cons, ih]
    simp [perform, submitAll, Logged.feed]

@[simp] theorem submitted_submits (os : List Opinion) : submitted (os.map .submit) = os := by
  induction os with
  | nil => rfl
  | cons o os ih => simp [submitted_cons, Call.opinion?, ih]

theorem comparisons_append (c : Coordinator) (ks ls : List Call) :
    c.comparisons (ks ++ ls) = c.comparisons ks ++ (c.after ks).comparisons ls := by
  induction ks generalizing c with
  | nil => rfl
  | cons k ks ih => simp [comparisons, ih]

theorem comparison?_eq_some : c.comparison? k = some m ↔
    k = .submit m.later ∧ c.counterpart? m.later = some m.earlier := by
  cases k with
  | submit o =>
    rw [comparison?, Option.map_eq_some_iff]
    constructor
    · rintro ⟨w, hw, rfl⟩
      exact ⟨rfl, hw⟩
    · rintro ⟨he, hw⟩
      cases he
      exact ⟨_, hw, rfl⟩
  | _ => simp [comparison?]

/-- Every comparison of a run is made at one of its submissions. -/
theorem mem_comparisons : m ∈ c.comparisons ks ↔
    ∃ pre post, ks = pre ++ .submit m.later :: post ∧
      (c.after pre).counterpart? m.later = some m.earlier := by
  induction ks generalizing c with
  | nil => simp [comparisons]
  | cons k ks ih =>
    rw [comparisons, List.mem_append, Option.mem_toList, comparison?_eq_some, ih]
    constructor
    · rintro (⟨rfl, hm⟩ | ⟨pre, post, rfl, hm⟩)
      · exact ⟨[], ks, rfl, hm⟩
      · exact ⟨k :: pre, post, rfl, hm⟩
    · rintro ⟨pre, post, he, hm⟩
      cases pre with
      | nil =>
        cases he
        exact Or.inl ⟨rfl, hm⟩
      | cons j pre =>
        cases he
        exact Or.inr ⟨pre, post, rfl, hm⟩

/-- The outcome of a submission tells of a comparison just where one is made. -/
theorem verdict_submission {r : Outcome} {c' : Coordinator} {met : Option Opinion}
    (h : Submission c o met r c') :
    (if r.IsVerdict then [r] else []) =
      (met.map (Comparison.mk · o)).toList.map Comparison.outcome := by
  cases h with
  | agreeing _ _ _ _ _ _ _ hcmp =>
    simp [Outcome.IsVerdict, Comparison.outcome, Comparison.Agrees, hcmp]
  | disagreeing _ _ _ _ _ _ _ hcmp =>
    simp [Outcome.IsVerdict, Comparison.outcome, Comparison.Agrees, hcmp]
  | _ => simp [Outcome.IsVerdict]

/-- The verdicts among the answers of a run are those of its comparisons. -/
theorem verdicts_eq (c : Coordinator) (ks : List Call) :
    (c.outcomes ks).filter (·.IsVerdict) = (c.comparisons ks).map Comparison.outcome := by
  induction ks generalizing c with
  | nil => rfl
  | cons k ks ih =>
    rw [comparisons, List.map_append, ← ih]
    cases k with
    | submit o =>
      rw [comparison?, ← verdict_submission (c.submission o)]
      by_cases h : (c.submit o).value.1.IsVerdict <;>
        simp [outcomes, Reply.outcome?, h]
    | _ => rfl

theorem record_eq (c : Coordinator) (tick : Tick) (write : Opinion → Opinion) :
    ∃ current pool, c.record tick write = { c with current, pool } := by
  by_cases h : c.collecting
  · exact ⟨_, _, if_pos h⟩
  · exact ⟨c.current, c.pool, if_neg h⟩

theorem takeLocal_eq (c : Coordinator) (stop : Tick) :
    ∃ current pool, (c.takeLocal stop).value.2 = { c with current, pool } := by
  rw [takeLocal]
  cases hc : c.current with
  | none => exact ⟨c.current, c.pool, rfl⟩
  | some o =>
    by_cases hd : c.desynced
    · exact ⟨none, (c.pool.release o).value, by simp [hd]⟩
    · exact ⟨none, c.pool, by simp [hd]⟩

/-- Calls that neither submit nor report touch nothing that a comparison or a
report depends on. -/
theorem perform_aside (ho : k.opinion? = none) (hp : k ≠ .processPending) :
    (c.perform k).value.1.handedOut = [] ∧ c.comparison? k = none ∧
      ∃ current pool arbiterPlaying catchUpTarget, (c.perform k).value.2 =
        { c with current, pool, arbiterPlaying, catchUpTarget } := by
  cases k with
  | submit o => simp [Call.opinion?] at ho
  | processPending => exact absurd rfl hp
  | addState tick k s =>
    obtain ⟨current, pool, h⟩ := c.record_eq tick (·.recordState k s)
    exact ⟨rfl, rfl, current, pool, _, _, h⟩
  | addInfo tick subject detail =>
    obtain ⟨current, pool, h⟩ := c.record_eq tick (·.logEntry (.info ⟨tick, subject, detail⟩))
    exact ⟨rfl, rfl, current, pool, _, _, h⟩
  | addCall tick e depth site =>
    refine ⟨rfl, rfl, ?_⟩
    by_cases hl : c.config.logTraces
    · obtain ⟨current, pool, h⟩ :=
        c.record_eq tick (·.logEntry (.call ({ e with tick }.sealed depth site)))
      exact ⟨current, pool, _, _, (if_pos hl).trans h⟩
    · exact ⟨_, _, _, _, if_neg hl⟩
  | startCatchUp target =>
    refine ⟨rfl, rfl, ?_⟩
    by_cases hd : c.desynced
    · exact ⟨_, _, _, _, if_pos hd⟩
    · exact ⟨_, _, _, _, if_neg hd⟩
  | finishCatchUp => exact ⟨rfl, rfl, _, _, _, _, rfl⟩
  | setArbiterPlaying playing => exact ⟨rfl, rfl, _, _, _, _, rfl⟩
  | takeLocal stop =>
    obtain ⟨current, pool, h⟩ := c.takeLocal_eq stop
    exact ⟨rfl, rfl, current, pool, _, _, h⟩

@[simp] theorem desynced_processPending (c : Coordinator) :
    c.processPending.2.desynced = c.desynced := by
  rw [processPending]
  split
  next k hp => simp [desynced, hp]
  all_goals rfl

@[simp] theorem backlog_processPending (c : Coordinator) :
    c.processPending.2.backlog = c.backlog := by
  rw [processPending]
  split <;> rfl

@[simp] theorem config_processPending (c : Coordinator) :
    c.processPending.2.config = c.config := by
  rw [processPending]
  split <;> rfl

@[simp] theorem current_processPending (c : Coordinator) :
    c.processPending.2.current = c.current := by
  rw [processPending]
  split <;> rfl

@[simp] theorem hasPending_processPending (c : Coordinator) :
    c.processPending.2.hasPending = false := by
  rw [processPending]
  split <;> simp_all [hasPending]

/-- What holds at the start of a run and is kept by submissions, by reporting
and by all other calls holds at its end. -/
theorem run_induction
    {I : List Opinion → List Comparison → List Report → Coordinator → Prop} {c₀ : Coordinator}
    (start : I [] [] [] c₀)
    (submit : ∀ {h ms rs c o met r c'}, I h ms rs c → Submission c o met r c' →
      I (h ++ [o]) (ms ++ (met.map (Comparison.mk · o)).toList) rs c')
    (processPending : ∀ {h ms rs c}, I h ms rs c →
      I h ms (rs ++ c.processPending.1) c.processPending.2)
    (aside : ∀ {h ms rs c} current pool arbiterPlaying catchUpTarget, I h ms rs c →
      I h ms rs { c with current, pool, arbiterPlaying, catchUpTarget })
    (ks : List Call) :
    I (submitted ks) (c₀.comparisons ks) (c₀.reports ks) (c₀.after ks) := by
  induction ks using List.reverseRecOn with
  | nil => exact start
  | append_singleton ks k ih =>
    rw [submitted_append, comparisons_append, reports_append, after_append]
    generalize c₀.after ks = c at ih
    simp only [submitted_cons, submitted_nil, comparisons, reports_cons, reports_nil,
      after_cons, after_nil, List.append_nil]
    by_cases ho : k.opinion? = none
    · by_cases hp : k = .processPending
      · subst k
        simpa [comparison?, Call.opinion?, Reply.handedOut] using processPending ih
      · obtain ⟨hr, hm, current, pool, arbiterPlaying, catchUpTarget, hc⟩ :=
          perform_aside (c := c) ho hp
        rw [ho, hr, hm, hc]
        simpa using aside current pool arbiterPlaying catchUpTarget ih
    · cases k with
      | submit o =>
        simpa [comparison?, Call.opinion?, Reply.handedOut] using submit ih (c.submission o)
      | _ => exact absurd rfl ho

end Coordinator

end Lockstep
