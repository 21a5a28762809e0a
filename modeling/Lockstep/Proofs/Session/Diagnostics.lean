import Lockstep.Proofs.Coordinator.Diagnostics
import Lockstep.Proofs.Session.Simulation

/-! What a session is told to help find the cause of a desync has no part in
whether it finds one, or which. -/
namespace Lockstep.Session

variable {s t : Session} {k l : Call} {ks ls : List Call}

/-- The same call, but for what is recorded beside the samples and what a
comparison does not look at in an opinion. -/
inductive Call.SameDraws : Call → Call → Prop
  | coordinate {j m : Coordinator.Call} (h : j.SameDraws m) :
      SameDraws (.coordinate j) (.coordinate m)
  | send {a b : Opinion} (h : a.SameDraws b) : SameDraws (.send a) (.send b)
  | receive {a b : Opinion} (h : a.SameDraws b) : SameDraws (.receive a) (.receive b)
  | finishLocal (stop : Tick) : SameDraws (.finishLocal stop) (.finishLocal stop)
  | update : SameDraws .update .update
  | nextId : SameDraws .nextId .nextId

/-- One session has come as far with the calls `ks` as another one with `ls`:
the same outcomes, the same state of the verdict, the same samples over the same
ticks in what waits, in what is in the making and in all that is answered, and
the same cause in a conflict and in its report. -/
structure SameVerdicts (s t : Session) (ks ls : List Call) : Prop where
  outcomes : s.outcomes ks = t.outcomes ls
  desynced : (s.after ks).coordinator.desynced = (t.after ls).coordinator.desynced
  lastValid : (s.after ks).coordinator.lastValid = (t.after ls).coordinator.lastValid
  backlogLength :
    (s.after ks).coordinator.backlog.length = (t.after ls).coordinator.backlog.length
  backlog :
    List.Forall₂ Opinion.SameDraws (s.after ks).coordinator.backlog (t.after ls).coordinator.backlog
  current :
    Option.Rel Opinion.SameDraws (s.after ks).coordinator.current (t.after ls).coordinator.current
  phase : (s.after ks).coordinator.phase.Like Opinion.SameDraws (t.after ls).coordinator.phase
  replies : List.Forall₂ (Reply.Like .verdicts) (s.replies ks) (t.replies ls)

/-- Calls that draw the same samples bring about the same outcomes and get
answers that tell of the same verdicts. -/
theorem perform_sameDraws (h : s.Related .verdicts Coordinator.SameDraws t)
    (hk : k.SameDraws l) : s.Matched .verdicts Coordinator.SameDraws t k l := by
  cases hk with
  | coordinate hjm => exact h.coordinate (h.coordinator.perform hjm)
  | send hab => exact h.send hab
  | receive hab => exact h.receive Coordinator.simulation_sameDraws hab
  | finishLocal stop =>
    exact h.finishLocal Coordinator.simulation_sameDraws (h.coordinator.takeLocal stop)
  | update => exact h.update Coordinator.simulation_sameDraws
  | nextId => exact h.nextId

theorem sameDraws_new (config : Config) (ids : IdBlock) :
    (new config ids).Related .verdicts Coordinator.SameDraws (new config ids) where
  coordinator := ⟨⟨rfl, .nil, rfl, .running⟩, rfl, .none⟩
  senders := rfl
  receiving := rfl
  queue := .nil
  ids := rfl

/-- Two runs under the same settings that draw the same samples agree on the
verdict at every step, whatever else they are told: the lower halves of the
generator states, the traces, and what is said of catching up and of the arbiter. -/
theorem diagnostics_aside (config : Config) (ids : IdBlock)
    (hk : List.Forall₂ Call.SameDraws ks ls) (n : Nat) :
    (new config ids).SameVerdicts (new config ids) (ks.take n) (ls.take n) := by
  obtain ⟨hreplies, houtcomes, -, hafter⟩ :=
    (sameDraws_new config ids).run perform_sameDraws (List.forall₂_take n hk)
  have hstate := hafter.coordinator
  exact ⟨houtcomes, hstate.desynced, hstate.lastValid, hstate.backlog.length_eq, hstate.backlog,
    hstate.current, hstate.phase, hreplies⟩

/-- Two runs that trace different calls, hurry towards different ticks, record
generator states with different lower halves, and get remote opinions with
different hashes and flags. Both confirm the first range and desync on the second. -/
theorem diagnostics_aside_told :
    let theirs (start : Tick) (world : List Sample) (playing : Bool) (hashes : List TraceHash) :
        Opinion :=
      { origin := .remote, start, stop := some (start + 1), simulating := playing, world, hashes }
    let calls (text : String) (target : Tick) (low : GeneratorState) (playing : Bool)
        (hashes : List TraceHash) : List Call :=
      [.coordinate (.setArbiterPlaying playing), .coordinate (.startCatchUp target),
        .coordinate (.addCall 0 { callSite := text, generator := low } 2 7),
        .coordinate (.addState 0 .world (0x100000000 + low)),
        .coordinate (.addInfo 0 text text), .finishLocal 1, .coordinate .finishCatchUp,
        .send (theirs 0 [1] playing hashes), .coordinate (.addState 1 (.map 4) (0x200000000 + low)),
        .finishLocal 2, .send (theirs 1 [] playing hashes), .update]
    let ks := calls "a" 5 17 true [3]
    let ls := calls "b" 9 0xffffffff false []
    let s := new { logTraces := true } .global
    List.Forall₂ Call.SameDraws ks ls ∧ s.SameVerdicts s ks ls ∧
      s.outcomes ls = [.queued, .queued, .confirmed 0, .desynced] ∧
      s.outcomes ks = s.outcomes ls := by
  intro theirs calls ks ls s
  have hk : List.Forall₂ Call.SameDraws ks ls :=
    .cons (.coordinate (.setArbiterPlaying _ _)) (.cons (.coordinate (.startCatchUp _ _))
      (.cons (.coordinate (.addCall _ _ _ _ _ _ _)) (.cons (.coordinate (.addState _ _ (by decide)))
        (.cons (.coordinate (.addInfo _ _ _ _ _)) (.cons (.finishLocal _)
          (.cons (.coordinate .finishCatchUp) (.cons (.send ⟨rfl, rfl, fun k => by cases k <;> rfl⟩)
            (.cons (.coordinate (.addState _ _ (by decide))) (.cons (.finishLocal _)
              (.cons (.send ⟨rfl, rfl, fun k => by cases k <;> rfl⟩)
                (.cons .update .nil)))))))))))
  have hverdicts := diagnostics_aside { logTraces := true } .global hk 12
  exact ⟨hk, hverdicts, by decide, hverdicts.outcomes⟩

end Lockstep.Session
