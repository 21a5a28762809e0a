import Lockstep.Proofs.Coordinator.Pooling
import Lockstep.Proofs.Session.Simulation

/-! The bound on the pool has no effect that a caller could see. -/
namespace Lockstep.Session

variable {s t : Session} {k l : Call} {ks ls : List Call}

/-- Alike calls bring about the same outcomes and get alike answers. -/
theorem perform_alike (h : s.Related .full Coordinator.Alike t) (hk : k.Like .full l) :
    s.Matched .full Coordinator.Alike t k l := by
  refine h.perform (Coordinator.simulation_abreast .none) hk ?_ ?_
  · intro j m _ _ hjm
    exact h.coordinator.perform hjm
  · intro stop _
    exact h.coordinator.takeLocal stop

theorem run_alike (h : s.Related .full Coordinator.Alike t)
    (hk : List.Forall₂ (Call.Like .full) ks ls) :
    (Logged.feed perform ks s).Like
      (fun x y => List.Forall₂ (Reply.Like .full) x.1 y.1 ∧ x.2.Related .full Coordinator.Alike y.2)
      (Logged.feed perform ls t) := by
  obtain ⟨hreplies, -, hlog, hafter⟩ := h.run perform_alike hk
  exact ⟨⟨hreplies, hafter⟩, hlog⟩

theorem outcomes_alike (h : s.Related .full Coordinator.Alike t)
    (hk : List.Forall₂ (Call.Like .full) ks ls) : s.outcomes ks = t.outcomes ls :=
  (h.run perform_alike hk).2.1

theorem alike_new (config : Config) (m n : Nat) (ids : IdBlock) :
    (new { config with maxPooled := m } ids).Related .full Coordinator.Alike
      (new { config with maxPooled := n } ids) where
  coordinator := ⟨⟨rfl, .nil, rfl, .running⟩, rfl, .none, rfl, rfl, rfl⟩
  senders := rfl
  receiving := rfl
  queue := .nil
  ids := rfl

/-- Two sessions that differ only in how many opinions their pools may keep
answer alike at every step of every run: they find the same outcomes, hand out
opinions, reports and notices that cannot be told apart, log the same but for
what is said of the pool, and are in states that differ in the pool alone. A
pool keeps no more opinions than it may, and only cleared ones. -/
theorem pooling_invisible (config : Config) (m n : Nat) (ids : IdBlock)
    (hk : List.Forall₂ (Call.Like .full) ks ls) :
    let s := new { config with maxPooled := m } ids
    let t := new { config with maxPooled := n } ids
    List.Forall₂ (Reply.Like .full) (s.replies ks) (t.replies ls) ∧
      s.outcomes ks = t.outcomes ls ∧
      visible (s.log ks) = visible (t.log ls) ∧
      (s.after ks).Related .full Coordinator.Alike (t.after ls) ∧
      (s.after ks).coordinator.pool.Tidy m := by
  intro s t
  have hnew : s.Related .full Coordinator.Alike t := alike_new config m n ids
  obtain ⟨⟨hreplies, hafter⟩, hlog⟩ := run_alike hnew hk
  refine ⟨hreplies, outcomes_alike hnew hk, hlog, hafter, ?_⟩
  rw [(run_coordinator s ks).1]
  exact Coordinator.tidy_run (Pool.tidy_empty m) _

/-- One session uses an opinion again and hands it out with the row of a map
that it was used for before; the other, which keeps none, hands out a fresh
one. They are submitted, and the remote opinion for the same ticks is compared
with either. -/
theorem pooling_invisible_reuse :
    let maps := (∅ : SampleMap).push 7 1
    let reused : Opinion :=
      { origin := .local, start := 1, stop := some 2, world := [2], maps := maps.clear }
    let fresh : Opinion := { reused with maps := ∅ }
    let calls : Opinion → List Call := fun o =>
      [.coordinate (.addState 0 (.map 7) 0x100000000), .finishLocal 1,
        .receive { origin := .remote, start := 0, stop := some 1, maps },
        .coordinate (.addState 1 .world 0x200000000), .coordinate (.takeLocal 2),
        .coordinate (.submit o),
        .receive { origin := .remote, start := 1, stop := some 2, world := [2] }]
    let s := new {} .global
    let t := new { maxPooled := 0 } .global
    reused ≠ fresh ∧ reused.Alike fresh ∧
      ((s.after ((calls reused).take 4)).coordinator.takeLocal 2).value.1 = some reused ∧
      ((t.after ((calls fresh).take 4)).coordinator.takeLocal 2).value.1 = some fresh ∧
      List.Forall₂ (Call.Like .full) (calls reused) (calls fresh) ∧
      t.outcomes (calls fresh) = [.queued, .confirmed 0, .queued, .confirmed 1] ∧
      s.outcomes (calls reused) = t.outcomes (calls fresh) := by
  intro maps reused fresh calls s t
  have halike : reused.Alike fresh := by
    refine Opinion.SameDraws.alike ⟨rfl, rfl, fun k => ?_⟩ rfl rfl rfl
    cases k with
    | command | world => rfl
    | map id => exact SampleMap.samples_clear maps id
  have hcalls : List.Forall₂ (Call.Like .full) (calls reused) (calls fresh) :=
    .cons (.same _) (.cons (.same _) (.cons (.same _) (.cons (.same _) (.cons (.same _)
      (.cons (.coordinate (.submit halike)) (.cons (.same _) .nil))))))
  refine ⟨by decide, halike, by decide, by decide, hcalls, by decide, ?_⟩
  exact (pooling_invisible {} 64 0 .global hcalls).2.1

end Lockstep.Session
