import Lockstep.Proofs.Coordinator.Gathering
import Lockstep.Proofs.Session.Tracing

/-! What a session hands out of its own side: all that it has recorded, whatever
becomes of it at home. -/
namespace Lockstep.Session

open Coordinator (Collected Sourced hurrying)

/-- Local opinions are complete. Between two hand-outs, if no desync is found
there, nothing is handed out just if the session has desynced long before or
nothing has been recorded: no state, no text, and no call if calls are traced.
Otherwise the opinion starts with the first recording, and holds the samples of
every category, the entries and their hashes in the order of recording, and the
mark of a catch-up if one was in progress at a recording. Its entries carry the
ticks of their calls, and those of traced calls are sealed. To finish it at a
session gives that opinion, whatever its submission comes to. -/
theorem local_opinion_complete (config : Config) (hreplay : config.replay = false)
    (pre ks : List Coordinator.Call) (hpre : ∀ k ∈ pre.getLast?, k.Takes)
    (hks : ∀ k ∈ ks, ¬ k.Takes)
    (hd : ((Coordinator.new config).after (pre ++ ks)).desynced =
      ((Coordinator.new config).after pre).desynced) (stop : Tick) :
    let c := (Coordinator.new config).after (pre ++ ks)
    ((c.takeLocal stop).value.1 = none ↔ ((Coordinator.new config).after pre).desynced = true ∨
        ∀ k ∈ ks, k.recordsFor? config.logTraces = none) ∧
      (∀ o, (c.takeLocal stop).value.1 = some o →
        Collected config.logTraces pre ks stop o ∧ Sourced config.logTraces ks o) ∧
      c.catchingUp = (!c.desynced && hurrying (pre ++ ks)) ∧
      ∀ s : Session, s.coordinator = c →
        (s.finishLocal stop).value.1 = (c.takeLocal stop).value.1 := by
  intro c
  have hfinish : ∀ s : Session, s.coordinator = c →
      (s.finishLocal stop).value.1 = (c.takeLocal stop).value.1 := by
    rintro s hs
    rw [finishLocal_takes, hs]
  cases hrunning : ((Coordinator.new config).after pre).desynced with
  | false =>
    rw [hrunning] at hd
    obtain ⟨hnone, hsome⟩ := Coordinator.takeLocal_run hreplay hpre hks hd stop
    refine ⟨by simpa using hnone, fun o ho => ⟨hsome o ho, (hsome o ho).sourced⟩, ?_, hfinish⟩
    rw [show c.desynced = false from hd]
    exact Coordinator.catchingUp_run hd
  | true =>
    rw [hrunning] at hd
    have hhalted := Coordinator.halted_run hd
    have htaken : (c.takeLocal stop).value.1 = none := by
      rw [Coordinator.takeLocal_none hhalted.current]
    refine ⟨by simp [htaken], fun o ho => ?_, ?_, hfinish⟩
    · cases htaken.symm.trans ho
    · rw [show c.desynced = true from hd]
      exact congrArg Option.isSome hhalted.catchUpTarget

/-- An opinion whose object has been in use before, for the same map, and that a
traced call opens during a catch-up. The remote opinion for its range disagrees. -/
theorem local_opinion_complete_reuse :
    let past (origin : Origin) : Opinion :=
      { origin, start := 0, stop := some 1, maps := SampleMap.push ∅ 7 1 }
    let theirs : Opinion := { origin := .remote, start := 2, stop := some 5, world := [1] }
    let pre : List Coordinator.Call := [.addState 0 (.map 7) 0x100000000, .takeLocal 1]
    let ks : List Coordinator.Call :=
      [.submit (past .local), .submit (past .remote), .startCatchUp 9,
        .addCall 2 { callSite := "a" } 1 5, .finishCatchUp, .addState 3 (.map 7) 0x500000000,
        .submit theirs, .addState 4 (.map 7) 0x600000000, .addInfo 4 "b" "c"]
    let c := (Coordinator.new { logTraces := true }).after (pre ++ ks)
    let s : Session := { new { logTraces := true } .global with coordinator := c }
    ∃ o, (s.finishLocal 5).value.1 = some o ∧ Collected true pre ks 5 o ∧ Sourced true ks o ∧
      o.start = 2 ∧
      o.samples (.map 7) = [5, 6] ∧ o.entries.map TraceEntry.tick = [2, 4] ∧
      o.simulating = true ∧ s.outcomes [.finishLocal 5] = [.desynced] := by
  intro past theirs pre ks c s
  obtain ⟨hnone, hsome, -, hfinish⟩ :=
    local_opinion_complete { logTraces := true } rfl pre ks (by decide) (by decide) (by decide) 5
  have htaken := (hfinish s rfl).symm
  have hout : s.outcomes [.finishLocal 5] = [.desynced] := by decide
  cases ho : (s.finishLocal 5).value.1 with
  | none =>
    obtain hlong | hnothing := hnone.1 (htaken.trans ho)
    · cases hlong
    · cases hnothing (.addInfo 4 "b" "c") (by decide)
  | some o =>
    obtain ⟨hcollected, hsourced⟩ := hsome o (htaken.trans ho)
    refine ⟨o, rfl, hcollected, hsourced, ?_, ?_, ?_, ?_, hout⟩
    · exact (Option.some.inj hcollected.start).symm
    · exact hcollected.samples _
    · rw [hcollected.entries]
      rfl
    · rw [hcollected.simulating]
      exact ⟨ks.take 3, _, ks.drop 4, rfl, rfl, rfl⟩

end Lockstep.Session
