import Lockstep.Proofs.Coordinator.Verdict

/-! What a report says about the two opinions of a conflict. -/
namespace Lockstep

namespace Report

/-- The report is on two opinions, `a` submitted before `b`: its cause is what
`a` has against `b`, and its traces are compared from the local side. -/
structure About (r : Report) (a b : Opinion) : Prop where
  local_origin : r.localOpinion.origin = .local
  remote_origin : r.remoteOpinion.origin = .remote
  opinions : (a = r.localOpinion ∧ b = r.remoteOpinion) ∨
    (a = r.remoteOpinion ∧ b = r.localOpinion)
  cause : a.disagreement? b = some r.cause
  diffAt : r.diffAt = r.localOpinion.traceDiff? r.remoteOpinion

variable {r : Report} {a b : Opinion} {ks : List Coordinator.Call}

theorem About.cause_of_remote_first (h : r.About a b) (ho : a.origin = .remote) :
    r.localOpinion.disagreement? r.remoteOpinion = some r.cause.swap := by
  obtain ⟨hl, hr, ⟨rfl, rfl⟩ | ⟨rfl, rfl⟩, hc, -⟩ := h
  · exact absurd (hl.symm.trans ho) (by decide)
  · rw [Opinion.disagreement?_swap r.remoteOpinion, hc]
    rfl

/-- The cause is told from the local side just if the local opinion came first. -/
theorem About.cause_iff_local_first (h : r.About a b) :
    r.localOpinion.disagreement? r.remoteOpinion = some r.cause ↔ a.origin = .local := by
  constructor
  · intro hc
    cases ho : a.origin with
    | «local» => rfl
    | remote =>
      rw [h.cause_of_remote_first ho] at hc
      exact absurd (Option.some.inj hc) (Opinion.swap_ne_of_disagreement h.cause)
  · intro ho
    obtain ⟨hl, hr, ⟨rfl, rfl⟩ | ⟨rfl, rfl⟩, hc, -⟩ := h
    · exact hc
    · exact absurd (hr.symm.trans ho) (by decide)

theorem about_report {k : Conflict} (hne : k.first.origin ≠ k.second.origin)
    (hc : k.first.disagreement? k.second = some k.cause) (lastValid : Option Tick)
    (arbiterAtLastValid : Bool) :
    (k.report lastValid arbiterAtLastValid).About k.first k.second := by
  rcases Origin.local_remote_of_ne hne with ⟨hx, hy⟩ | ⟨hx, hy⟩
  · have he : k.first.origin.isLocal = true := by rw [hx]; rfl
    rw [Conflict.report, if_pos he]
    exact ⟨hx, hy, Or.inl ⟨rfl, rfl⟩, hc, rfl⟩
  · have he : ¬ k.first.origin.isLocal = true := by rw [hx]; decide
    rw [Conflict.report, if_neg he]
    exact ⟨hy, hx, Or.inr ⟨rfl, rfl⟩, hc, rfl⟩

/-- The report is on two opinions that the calls submit one after the other.
Its cause is what the local one has against the remote one just if the local
one comes first, and the same told from the other side if not. -/
def InArrivalOrder (r : Report) (ks : List Coordinator.Call) : Prop :=
  ∃ pre a mid b post, ks = pre ++ .submit a :: mid ++ .submit b :: post ∧ r.About a b ∧
    (r.localOpinion.disagreement? r.remoteOpinion = some r.cause ↔ a.origin = .local) ∧
    (a.origin = .remote →
      r.localOpinion.disagreement? r.remoteOpinion = some r.cause.swap)

end Report

variable {ks : List Coordinator.Call} {r : Report}

theorem Coordinator.reports_inArrivalOrder (config : Config)
    (hr : r ∈ (new config).reports ks) : r.InArrivalOrder ks := by
  cases judged_run config ks with
  | running hp hm hl hrs => simp [hrs] at hr
  | @ended k ns hms hm hc hl hp =>
    have hmem : ⟨k.first, k.second⟩ ∈ (new config).comparisons ks := by simp [hms]
    obtain ⟨pre, mid, post, hks, -⟩ := split_of_comparison hmem
    rcases hp with ⟨-, hrs⟩ | ⟨-, hrs⟩
    · simp [hrs] at hr
    · rw [hrs] at hr
      have habout := Report.about_report (paired_run hmem).origin_ne hc
        ((new config).after ks).lastValid ((new config).after ks).arbiterAtLastValid
      rw [← List.mem_singleton.1 hr] at habout
      exact ⟨pre, k.first, mid, k.second, post, hks, habout, habout.cause_iff_local_first,
        habout.cause_of_remote_first⟩

end Lockstep
