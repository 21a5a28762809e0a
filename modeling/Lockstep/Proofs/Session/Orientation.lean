import Lockstep.Proofs.Coordinator.Reports
import Lockstep.Proofs.Session.Run

/-! Reports tell the local opinion from the remote one; their cause does so only
where the local opinion came first. -/
namespace Lockstep

/-- Whatever a coordinator or a session goes through, every report has a local
and a remote opinion, and its cause describes them in the order of their
arrival: from the local side only if the local opinion was submitted first. -/
theorem reports_orientation (config : Config) (ids : IdBlock) :
    (∀ ks, ∀ r ∈ (Coordinator.new config).reports ks, r.InArrivalOrder ks) ∧
      ∀ ks, ∀ r ∈ (Session.new config ids).reports ks,
        r.InArrivalOrder ((Session.new config ids).coordinatorRun ks) := by
  constructor
  · intro ks r hr
    exact Coordinator.reports_inArrivalOrder config hr
  · intro ks r hr
    rw [((Session.new config ids).run_coordinator ks).2] at hr
    exact Coordinator.reports_inArrivalOrder config hr

/-- A local opinion that waits for the remote one leads to a report whose cause
is told from the local side. -/
theorem reports_local_first :
    let ours : Opinion := { origin := .local, start := 0, stop := some 1, world := [2] }
    let theirs : Opinion := { origin := .remote, start := 0, stop := some 1, world := [1] }
    let ks : List Coordinator.Call := [.submit ours, .submit theirs, .processPending]
    ∃ r ∈ (Coordinator.new {}).reports ks, r.InArrivalOrder ks ∧
      r.localOpinion.disagreement? r.remoteOpinion = some r.cause := by
  intro ours theirs ks
  obtain ⟨horder, -⟩ := reports_orientation {} .global
  obtain ⟨r, hr, hcause⟩ : ∃ r ∈ (Coordinator.new {}).reports ks,
      r.localOpinion.disagreement? r.remoteOpinion = some r.cause := by
    decide
  exact ⟨r, hr, horder ks r hr, hcause⟩

/-- A remote opinion that waits for the local one leads to a report whose cause
takes the remote samples for ours. -/
theorem reports_remote_first :
    let theirs : Opinion := { origin := .remote, start := 0, stop := some 1, world := [1] }
    let ours : Opinion := { origin := .local, start := 0, stop := some 1, world := [2] }
    ∃ r ∈ (Session.new {} .global).reports
        [.receive theirs, .coordinate (.submit ours), .coordinate .processPending],
      r.localOpinion = ours ∧ r.remoteOpinion = theirs ∧
        r.cause = .divergence ⟨.world, 0, .state 1 2⟩ ∧
        ours.disagreement? theirs = some (.divergence ⟨.world, 0, .state 2 1⟩) ∧
        r.localOpinion.disagreement? r.remoteOpinion ≠ some r.cause := by
  decide

end Lockstep
