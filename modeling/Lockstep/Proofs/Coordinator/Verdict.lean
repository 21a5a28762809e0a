import Lockstep.Proofs.Coordinator.Backlog
import Lockstep.Proofs.Opinion.Symmetry

/-! The verdicts of a run: which opinions they are about, and what they decide. -/
namespace Lockstep

/-- The two opinions are among those submitted, come from either side and
start together. -/
structure Comparison.Paired (m : Comparison) (h : List Opinion) : Prop where
  earlier_mem : m.earlier ∈ h
  later_mem : m.later ∈ h
  origin_ne : m.earlier.origin ≠ m.later.origin
  start_eq : m.earlier.start = m.later.start

namespace Coordinator

variable {c c' : Coordinator} {h : List Opinion} {o : Opinion} {met : Option Opinion}
  {r : Outcome} {ks : List Call} {m : Comparison} {ms : List Comparison} {rs : List Report}
  {t : Tick}

theorem paired_run {config : Config} (hm : m ∈ (new config).comparisons ks) :
    m.Paired (submitted ks) := by
  obtain ⟨pre, post, rfl, hmet⟩ := mem_comparisons.1 hm
  obtain ⟨hw, hne, hst⟩ := counterpart_run hmet
  rw [submitted_append, submitted_cons]
  exact ⟨List.mem_append_left _ hw, by simp [Call.opinion?], hne, hst⟩

/-- The opinions of a comparison are submitted one after the other. -/
theorem split_of_comparison {config : Config} (hm : m ∈ (new config).comparisons ks) :
    ∃ pre mid post, ks = pre ++ .submit m.earlier :: mid ++ .submit m.later :: post ∧
      ((new config).after (pre ++ .submit m.earlier :: mid)).counterpart? m.later =
        some m.earlier := by
  obtain ⟨front, post, rfl, hmet⟩ := mem_comparisons.1 hm
  obtain ⟨hw, -, -⟩ := counterpart_run hmet
  obtain ⟨pre, mid, rfl⟩ := List.append_of_mem (mem_submitted.1 hw)
  exact ⟨pre, mid, post, rfl, hmet⟩

/-- What the comparisons made so far decide. The last valid tick is that of
the last agreement. A disagreement ends the session and is reported once. -/
inductive Judged (ms : List Comparison) (rs : List Report) (c : Coordinator) : Prop
  | running (hp : c.phase = .running) (hm : ∀ m ∈ ms, m.Agrees)
      (hl : c.lastValid = ms.getLast?.map (·.earlier.start)) (hr : rs = [])
  | ended {k : Conflict} {ns : List Comparison} (hms : ms = ns ++ [⟨k.first, k.second⟩])
      (hm : ∀ m ∈ ns, m.Agrees) (hc : k.first.disagreement? k.second = some k.cause)
      (hl : c.lastValid = ns.getLast?.map (·.earlier.start))
      (hp : (c.phase = .conflict k ∧ rs = []) ∨
        (c.phase = .reported ∧ rs = [k.report c.lastValid c.arbiterAtLastValid]))

theorem desynced_eq_false : c.desynced = false ↔ c.phase = .running := by
  rw [desynced]
  split <;> simp_all

theorem judged_submission (hj : Judged ms rs c) (hs : Submission c o met r c') :
    Judged (ms ++ (met.map (Comparison.mk · o)).toList) rs c' := by
  cases hj with
  | running hp hm hl hr =>
    have hd := desynced_eq_false.2 hp
    cases hs with
    | ignored pool hd' => simp [hd] at hd'
    | @agreeing _ w _ _ _ pool _ _ _ _ _ _ hcmp =>
      refine .running hp ?_ (by simp) hr
      intro m hmem
      rcases List.mem_append.1 hmem with hmem | hmem
      · exact hm m hmem
      · cases List.mem_singleton.1 hmem
        exact hcmp
    | disagreeing pool _ _ _ _ _ _ hcmp => exact .ended rfl hm hcmp hl (Or.inl ⟨rfl, hr⟩)
    | _ => exact .running hp (by simpa using hm) (by simpa using hl) hr
  | ended hms hm hc hl hp =>
    have hd : c.desynced ≠ false := by
      rw [ne_eq, desynced_eq_false]
      rcases hp with ⟨hp, -⟩ | ⟨hp, -⟩ <;> simp [hp]
    cases hs with
    | ignored pool hd' => exact .ended (by simpa using hms) hm hc hl hp
    | _ => contradiction

theorem judged_processPending (hj : Judged ms rs c) :
    Judged ms (rs ++ c.processPending.1) c.processPending.2 := by
  cases hj with
  | running hp hm hl hr =>
    have he : c.processPending = ([], c) := by simp [processPending, hp]
    rw [he]
    exact .running hp hm hl (by simp [hr])
  | @ended k ns hms hm hc hl hp =>
    rcases hp with ⟨hp, hr⟩ | ⟨hp, hr⟩
    · have he : c.processPending =
          ([k.report c.lastValid c.arbiterAtLastValid], { c with phase := .reported }) := by
        simp [processPending, hp]
      rw [he]
      exact .ended hms hm hc hl (Or.inr ⟨rfl, by simp [hr]⟩)
    · have he : c.processPending = ([], c) := by simp [processPending, hp]
      rw [he]
      exact .ended hms hm hc hl (Or.inr ⟨hp, by simp [hr]⟩)

theorem judged_run (config : Config) (ks : List Call) :
    Judged ((new config).comparisons ks) ((new config).reports ks) ((new config).after ks) := by
  refine run_induction (I := fun _ ms rs c => Judged ms rs c) ?_ judged_submission
    judged_processPending ?_ ks
  · exact .running rfl (by simp) rfl rfl
  · intro h ms rs c current pool arbiterPlaying catchUpTarget hj
    cases hj with
    | running hp hm hl hr => exact .running hp hm hl hr
    | ended hms hm hc hl hp => exact .ended hms hm hc hl hp

/-- A run has desynced just if one of its comparisons disagrees. -/
theorem desynced_run_eq_false {config : Config} :
    ((new config).after ks).desynced = false ↔
      ∀ m ∈ (new config).comparisons ks, m.Agrees := by
  rw [desynced_eq_false]
  cases judged_run config ks with
  | running hp hm hl hr => exact ⟨fun _ => hm, fun _ => hp⟩
  | @ended k ns hms hm hc hl hp =>
    constructor
    · intro he
      rcases hp with ⟨hp, -⟩ | ⟨hp, -⟩ <;> simp [hp] at he
    · intro ha
      have hk := ha ⟨k.first, k.second⟩ (by simp [hms])
      simp [Comparison.Agrees, hc] at hk

theorem met_of_confirmed (hs : Submission c o met (.confirmed t) c') :
    ∃ w, met = some w ∧ w.start = t ∧ w.disagreement? o = none := by
  cases hs with
  | agreeing pool hd hb ho hsplit hlt heq hcmp => exact ⟨_, rfl, rfl, hcmp⟩

theorem met_of_desynced (hs : Submission c o met .desynced c') :
    ∃ w cause, met = some w ∧ w.disagreement? o = some cause ∧
      c'.phase = .conflict ⟨w, o, cause⟩ := by
  cases hs with
  | disagreeing pool hd hb ho hsplit hlt heq hcmp => exact ⟨_, _, rfl, hcmp, rfl⟩

theorem agrees_of_all (hall : ∀ l ∈ h, ∀ r ∈ h, l.origin = .local → r.origin = .remote →
    l.start = r.start → l.disagreement? r = none) (hm : m.Paired h) : m.Agrees := by
  obtain ⟨he, hl, hne, hst⟩ := hm
  rcases Origin.local_remote_of_ne hne with ⟨hx, hy⟩ | ⟨hx, hy⟩
  · exact hall _ he _ hl hx hy hst
  · exact Opinion.disagreement?_eq_none_comm.1 (hall _ hl _ he hy hx hst.symm)

/-- Verdicts tell the truth. Whatever calls come before, an opinion is
confirmed, or found to disagree, by comparison with an earlier one of the other
side that starts with it; ranges are blamed only if both have ended, at
different ticks. A run whose two sides agree wherever they start together never
desyncs. -/
theorem verdicts_sound (config : Config) (ks : List Call) :
    (∀ pre o post t, ks = pre ++ .submit o :: post →
      (((new config).after pre).submit o).value.1 = .confirmed t →
      ∃ w ∈ submitted pre, ((new config).after pre).counterpart? o = some w ∧
        w.origin ≠ o.origin ∧ w.start = t ∧ o.start = t ∧
        w.disagreement? o = none ∧ o.disagreement? w = none) ∧
      (∀ pre o post, ks = pre ++ .submit o :: post →
        (((new config).after pre).submit o).value.1 = .desynced →
        ∃ w ∈ submitted pre, ∃ cause, ((new config).after pre).counterpart? o = some w ∧
          w.origin ≠ o.origin ∧ w.start = o.start ∧ w.disagreement? o = some cause ∧
          (((new config).after pre).submit o).value.2.phase = .conflict ⟨w, o, cause⟩ ∧
          ∀ m, cause = .rangeMismatch m →
            ∃ s t, w.stop = some s ∧ o.stop = some t ∧ s ≠ t) ∧
      ((∀ l ∈ submitted ks, ∀ r ∈ submitted ks, l.origin = .local → r.origin = .remote →
          l.start = r.start → l.disagreement? r = none) →
        Outcome.desynced ∉ (new config).outcomes ks ∧
          ((new config).after ks).desynced = false) := by
  refine ⟨?_, ?_, ?_⟩
  · intro pre o post t _ hr
    have hs := ((new config).after pre).submission o
    rw [hr] at hs
    obtain ⟨w, hmet, hwt, hcmp⟩ := met_of_confirmed hs
    obtain ⟨hw, hne, heq⟩ := counterpart_run hmet
    exact ⟨w, hw, hmet, hne, hwt, heq.symm.trans hwt, hcmp,
      Opinion.disagreement?_eq_none_comm.1 hcmp⟩
  · intro pre o post _ hr
    have hs := ((new config).after pre).submission o
    rw [hr] at hs
    obtain ⟨w, cause, hmet, hcmp, hphase⟩ := met_of_desynced hs
    obtain ⟨hw, hne, heq⟩ := counterpart_run hmet
    refine ⟨w, hw, cause, hmet, hne, heq, hcmp, hphase, ?_⟩
    rintro m rfl
    exact Opinion.stops_of_rangeMismatch heq hcmp
  · intro hall
    have hagree : ∀ m ∈ (new config).comparisons ks, m.Agrees :=
      fun m hm => agrees_of_all hall (paired_run hm)
    refine ⟨?_, desynced_run_eq_false.2 hagree⟩
    intro hd
    have hv : Outcome.desynced ∈ ((new config).outcomes ks).filter (·.IsVerdict) :=
      List.mem_filter.2 ⟨hd, rfl⟩
    rw [verdicts_eq] at hv
    obtain ⟨m, hm, hout⟩ := List.mem_map.1 hv
    simp [Comparison.outcome, hagree m hm] at hout

/-- A lost and a repeated remote opinion raise no alarm. -/
theorem verdicts_sound_repeated :
    let ours : Opinion := { origin := .local, start := 1, world := [7] }
    let theirs : Opinion := { origin := .remote, start := 1, world := [7] }
    let lost : Opinion := { origin := .local, start := 0, world := [3] }
    ((new {}).after [.submit lost, .submit theirs, .submit theirs, .submit ours]).desynced =
      false := by
  intro ours theirs lost
  obtain ⟨-, -, hagree⟩ :=
    verdicts_sound {} [.submit lost, .submit theirs, .submit theirs, .submit ours]
  exact (hagree (by decide)).2

end Coordinator

end Lockstep
