import Lockstep.Proofs.Coordinator.Pooling

/-! Two coordinators that have been told different things about a run, but have
drawn the same samples: they find the same verdicts. -/
namespace Lockstep

/-- Two reports tell of the same conflict. Where the traces part, and whether
the arbiter was playing, may be told differently. -/
structure Report.SameVerdict (r t : Report) : Prop where
  cause : r.cause = t.cause
  localOpinion : r.localOpinion.SameDraws t.localOpinion
  remoteOpinion : r.remoteOpinion.SameDraws t.remoteOpinion
  lastValid : r.lastValid = t.lastValid

theorem Conflict.Like.sameVerdict {k l : Conflict} (h : k.Like Opinion.SameDraws l)
    (v : Option Tick) (p q : Bool) : (k.report v p).SameVerdict (l.report v q) := by
  obtain ⟨hcause, hlocal, hremote⟩ := h.report id v v p q
  exact ⟨hcause, hlocal, hremote, rfl⟩

/-- Opinions and reports that are the same but for what helps to find the cause
of a desync. -/
def Likeness.verdicts : Likeness :=
  { Likeness.draws with
    report := Report.SameVerdict
    reports := fun v p h => h.sameVerdict v p p
    notices := fun h => h.localOpinion.start }

namespace Coordinator

/-- The same call, but for what is recorded beside the samples: the lower half
of a generator state, what a trace says, what is said of catching up and of the
arbiter, and all that a comparison does not look at in a submitted opinion. -/
inductive Call.SameDraws : Call → Call → Prop
  | addState (tick : Tick) (k : Category) {s s' : GeneratorState} (h : s >>> 32 = s' >>> 32) :
      SameDraws (.addState tick k s) (.addState tick k s')
  | addInfo (tick : Tick) (subject subject' detail detail' : String) :
      SameDraws (.addInfo tick subject detail) (.addInfo tick subject' detail')
  | addCall (tick : Tick) (e e' : CallEntry) (depth depth' : UInt32) (site site' : TraceHash) :
      SameDraws (.addCall tick e depth site) (.addCall tick e' depth' site')
  | startCatchUp (target target' : Tick) :
      SameDraws (.startCatchUp target) (.startCatchUp target')
  | finishCatchUp : SameDraws .finishCatchUp .finishCatchUp
  | setArbiterPlaying (playing playing' : Bool) :
      SameDraws (.setArbiterPlaying playing) (.setArbiterPlaying playing')
  | takeLocal (stop : Tick) : SameDraws (.takeLocal stop) (.takeLocal stop)
  | submit {a b : Opinion} (h : a.SameDraws b) : SameDraws (.submit a) (.submit b)
  | processPending : SameDraws .processPending .processPending

/-- Two coordinators under the same settings that hold the same samples. -/
structure SameDraws (c d : Coordinator) : Prop extends InStep Opinion.SameDraws c d where
  config : c.config = d.config
  current : Option.Rel Opinion.SameDraws c.current d.current

variable {c d : Coordinator} {k l : Call} {a b : Opinion}

namespace SameDraws

theorem collecting (h : c.SameDraws d) : c.collecting = d.collecting := by
  rw [Coordinator.collecting, Coordinator.collecting, h.config, h.desynced]

theorem openCurrent (h : c.SameDraws d) (tick : Tick) :
    (c.openCurrent tick).1.SameDraws (d.openCurrent tick).1 := by
  have hc := (c.alike_openCurrent tick).toSameDraws
  have hd := (d.alike_openCurrent tick).toSameDraws
  exact hc.trans ((making_rel .refl h.current tick).trans hd.symm)

/-- What is written is the same in its samples, if it adds the same samples. -/
theorem record {write write' : Opinion → Opinion} (h : c.SameDraws d) (tick : Tick)
    (hwrite : ∀ {o p : Opinion}, o.SameDraws p → (write o).SameDraws (write' p)) :
    (c.record tick write).SameDraws (d.record tick write') := by
  have hopen := ((Opinion.SameDraws.marked _ c.catchingUp).trans (h.openCurrent tick)).trans
    (Opinion.SameDraws.marked _ d.catchingUp).symm
  rw [Coordinator.record, Coordinator.record, h.collecting]
  split
  · exact { h with current := .some (hwrite hopen) }
  · exact h

/-- The lower half of a generator state is no part of its sample. -/
theorem addState {s s' : GeneratorState} (h : c.SameDraws d) (tick : Tick) (k : Category)
    (hs : s >>> 32 = s' >>> 32) : (c.addState tick k s).SameDraws (d.addState tick k s') := by
  have hsample : Sample.ofState s = Sample.ofState s' := congrArg UInt64.toUInt32 hs
  refine h.record tick fun hop => ?_
  rw [Opinion.recordState, Opinion.recordState, hsample]
  exact hop.record k _

/-- No entry of a trace is a sample. -/
theorem recordEntry (h : c.SameDraws d) (tick : Tick) (e e' : TraceEntry) :
    (c.record tick (·.logEntry e)).SameDraws (d.record tick (·.logEntry e')) :=
  h.record tick fun hop => ((Opinion.SameDraws.logEntry _ e).trans hop).trans
    (Opinion.SameDraws.logEntry _ e').symm

theorem addCall (h : c.SameDraws d) (tick : Tick) (e e' : CallEntry) (depth depth' : UInt32)
    (site site' : TraceHash) :
    (c.addCall tick e depth site).SameDraws (d.addCall tick e' depth' site') := by
  rw [Coordinator.addCall, Coordinator.addCall, h.config]
  split
  · exact h.recordEntry tick _ _
  · exact h

theorem startCatchUp (h : c.SameDraws d) (target target' : Tick) :
    (c.startCatchUp target).SameDraws (d.startCatchUp target') := by
  rw [Coordinator.startCatchUp, Coordinator.startCatchUp, h.desynced]
  split
  · exact h
  · exact { h with }

theorem takeLocal (h : c.SameDraws d) (stop : Tick) :
    (c.takeLocal stop).Like (HandOuts .verdicts SameDraws) (d.takeLocal stop) := by
  have hcurrent := h.current
  rw [Coordinator.takeLocal, Coordinator.takeLocal, h.desynced]
  generalize c.current = o, d.current = p at hcurrent
  cases hcurrent with
  | none => exact Logged.like_pure ⟨.none, h⟩
  | some hop =>
    dsimp only
    split
    · exact ⟨⟨.none, { h with current := .none }⟩, by simp⟩
    · exact Logged.like_pure ⟨.some (hop.finish stop), { h with current := .none }⟩

theorem submit (h : c.SameDraws d) (hab : a.SameDraws b) :
    (c.submit a).Like (fun x y => x.1 = y.1 ∧ x.2.SameDraws y.2) (d.submit b) := by
  obtain ⟨⟨heq, hstep⟩, hlog⟩ := like_submit id h.toInStep hab
  obtain ⟨hconfig, -, hcurrent, -⟩ := rest_submission (c.submission a)
  obtain ⟨hconfig', -, hcurrent', -⟩ := rest_submission (d.submission b)
  refine ⟨⟨heq, hstep, ?_, ?_⟩, hlog⟩
  · rw [hconfig, hconfig', h.config]
  · rw [hcurrent, hcurrent', heq]
    split
    · exact .none
    · exact h.current

theorem processPending (h : c.SameDraws d) :
    List.Forall₂ Report.SameVerdict c.processPending.1 d.processPending.1 ∧
      c.processPending.2.SameDraws d.processPending.2 := by
  have hphase := h.phase
  simp only [Coordinator.processPending]
  generalize hc : c.phase = p, hd : d.phase = q at hphase
  cases hphase with
  | running => exact ⟨.nil, h⟩
  | reported => exact ⟨.nil, h⟩
  | conflict hkl =>
    rw [h.lastValid]
    exact ⟨.cons (hkl.sameVerdict _ _ _) .nil, { h with phase := .reported, lastValid := rfl }⟩

end SameDraws

theorem simulation_sameDraws : Simulation .verdicts SameDraws where
  submit h hab := h.submit hab
  processPending h := h.processPending

/-- Calls that draw the same samples are answered by the same verdicts. -/
theorem SameDraws.perform (h : c.SameDraws d) (hk : k.SameDraws l) :
    (c.perform k).Like (Answers .verdicts SameDraws) (d.perform l) := by
  cases hk with
  | addState tick j hs => exact Logged.like_pure ⟨.done, h.addState tick j hs⟩
  | addInfo tick subject subject' detail detail' =>
    exact Logged.like_pure ⟨.done, h.recordEntry tick _ _⟩
  | addCall tick e e' depth depth' site site' =>
    exact Logged.like_pure ⟨.done, h.addCall tick e e' depth depth' site site'⟩
  | startCatchUp target target' =>
    exact Logged.like_pure ⟨.done, h.startCatchUp target target'⟩
  | finishCatchUp => exact Logged.like_pure ⟨.done, { h with }⟩
  | setArbiterPlaying playing playing' => exact Logged.like_pure ⟨.done, { h with }⟩
  | takeLocal stop =>
    exact (h.takeLocal stop).bind fun hxy => Logged.like_pure ⟨.taken hxy.1, hxy.2⟩
  | submit hab =>
    refine (h.submit hab).bind fun hxy => Logged.like_pure ⟨?_, hxy.2⟩
    rw [hxy.1]
    exact .outcome _
  | processPending =>
    obtain ⟨hreports, hstate⟩ := h.processPending
    exact Logged.like_pure ⟨.reports hreports, hstate⟩

end Coordinator

end Lockstep
