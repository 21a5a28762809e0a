import Lockstep.Peer.Basic
import Lockstep.Proofs.Coordinator.Recording
import Lockstep.Proofs.Session.Run

/-! What a peer makes of its coordinator while it simulates and closes a range. -/
namespace Lockstep

namespace Coordinator

variable {c c' : Coordinator} {o : Opinion} {os : List Opinion} {met : Option Opinion} {r : Outcome}

theorem current_submission (hs : Submission c o met r c') (hc : c.current = none) :
    c'.current = none := by
  cases hs <;> first | exact hc | rfl

theorem current_submits (hc : c.current = none) : (c.after (os.map .submit)).current = none := by
  induction os generalizing c with
  | nil => exact hc
  | cons o os ih =>
    rw [List.map_cons, after_cons]
    exact ih (current_submission (c.submission o) hc)

theorem ne_ignored_submission (hs : Submission c o met r c') (hd : c.desynced = false) :
    r ≠ .ignored := by
  cases hs with
  | ignored pool hdes => simp [hd] at hdes
  | _ => simp

theorem collecting_eq (hreplay : c.config.replay = false) : c.collecting = !c.desynced := by
  simp [collecting, hreplay]

theorem desynced_of_collecting (hcol : c.collecting = true) : c.desynced = false := by
  simp only [collecting, Bool.and_eq_true, Bool.not_eq_true'] at hcol
  exact hcol.2

theorem takeLocal_none (hc : c.current = none) (stop : Tick) :
    (c.takeLocal stop).value = (none, c) := by
  rw [takeLocal, hc]
  rfl

theorem takeLocal_some (hc : c.current = some o) (hd : c.desynced = false) (stop : Tick) :
    (c.takeLocal stop).value = (some (o.finish stop), { c with current := none }) := by
  simp [takeLocal, hc, hd]

end Coordinator

namespace Session

variable {s : Session} {o : Opinion}

theorem finishLocal_idle (hc : s.coordinator.current = none) (stop : Tick) :
    (s.finishLocal stop).value = (none, s) ∧
      s.coordinatorCalls (.finishLocal stop) = [.takeLocal stop] := by
  constructor
  · simp [finishLocal, Coordinator.takeLocal_none hc]
  · simp [coordinatorCalls, Coordinator.takeLocal_none hc]

theorem finishLocal_closes (hc : s.coordinator.current = some o)
    (hd : s.coordinator.desynced = false) (stop : Tick) :
    (s.finishLocal stop).value.1 = some (o.finish stop) ∧
      (s.finishLocal stop).value.2.coordinator.current = none ∧
      s.coordinatorCalls (.finishLocal stop) = [.takeLocal stop, .submit (o.finish stop)] := by
  have ht := Coordinator.takeLocal_some hc hd stop
  have hs := Coordinator.submission { s.coordinator with current := none } (o.finish stop)
  refine ⟨?_, ?_, ?_⟩
  · simp [finishLocal, ht, Coordinator.ne_ignored_submission hs hd]
  · simpa [finishLocal, ht] using Coordinator.current_submission hs rfl
  · simp [coordinatorCalls, ht]

/-- Nothing is in the making after an update if nothing was before. -/
theorem idle_update (hc : s.coordinator.current = none) :
    s.update.value.2.coordinator.current = none := by
  have hcoordinator : s.update.value.2.coordinator =
      s.coordinator.after (s.coordinatorCalls .update) :=
    congrArg Session.coordinator s.update_eq.2
  rw [hcoordinator, coordinatorCalls, Coordinator.after_append]
  exact (Coordinator.current_processPending _).trans (Coordinator.current_submits hc)

end Session

namespace Peer

open Coordinator (Building submitted)

variable {G : Generator} {p q : Peer G} {n : Nat} {ks : List Coordinator.Call}

/-- What is recorded of one tick, as calls. -/
def tickCalls (tick : Tick) (command world : GeneratorState)
    (maps : List (MapId × GeneratorState)) : List Coordinator.Call :=
  .addState tick .command command :: .addState tick .world world ::
    maps.map (fun (id, s) => .addState tick (.map id) s) ++
      [.addInfo tick "world tick" (worldInfo world)]

theorem foldl_addState (c : Coordinator) (tick : Tick) (maps : List (MapId × GeneratorState)) :
    maps.foldl (fun c (id, s) => c.addState tick (.map id) s) c =
      c.after (maps.map fun (id, s) => .addState tick (.map id) s) := by
  induction maps generalizing c with
  | nil => rfl
  | cons m maps ih =>
    rw [List.foldl_cons, ih]
    rfl

theorem recordTick_eq (c : Coordinator) (tick : Tick) (command world : GeneratorState)
    (maps : List (MapId × GeneratorState)) :
    recordTick c tick command world maps = c.after (tickCalls tick command world maps) := by
  rw [recordTick, foldl_addState, tickCalls, List.cons_append, List.cons_append,
    Coordinator.after_cons, Coordinator.after_cons, Coordinator.after_append]
  rfl

theorem records_tickCalls (tick : Tick) (command world : GeneratorState)
    (maps : List (MapId × GeneratorState)) :
    ∀ k ∈ tickCalls tick command world maps, k.Records tick := by
  intro k hk
  rw [tickCalls, List.mem_append, List.mem_cons, List.mem_cons, List.mem_map,
    List.mem_singleton] at hk
  rcases hk with (rfl | rfl | ⟨m, -, rfl⟩) | rfl
  · exact .state _ _
  · exact .state _ _
  · exact .state _ _
  · exact .info _ _

/-- The calls `ks` record `n` ticks of simulation that lead from `p` to `q`. -/
structure Simulated (p q : Peer G) (n : Nat) (ks : List Coordinator.Call) : Prop where
  records : ∀ k ∈ ks, ∃ t, k.Records t
  session : q.session = { p.session with coordinator := p.session.coordinator.after ks }
  tick : q.tick = p.tick + UInt32.ofNat n
  collecting : q.session.coordinator.collecting = p.session.coordinator.collecting
  idle : p.session.coordinator.collecting = false ∨ n = 0 →
    q.session.coordinator = p.session.coordinator
  keeps : p.session.coordinator.collecting = true →
    ∀ start, Building start p.session.coordinator → Building start q.session.coordinator
  opens : p.session.coordinator.collecting = true → 0 < n →
    p.session.coordinator.current = none → Building p.tick q.session.coordinator

theorem simulated_step (p : Peer G) : ∃ ks, Simulated p p.step 1 ks := by
  obtain ⟨command, world, maps, hs⟩ : ∃ command world maps, p.step.session =
      { p.session with
        coordinator := p.session.coordinator.after (tickCalls p.tick command world maps) } :=
    ⟨_, _, _, congrArg (fun c => { p.session with coordinator := c }) (recordTick_eq ..)⟩
  have hrec := records_tickCalls p.tick command world maps
  have hc := congrArg Session.coordinator hs
  refine ⟨_, fun k hk => ⟨_, hrec k hk⟩, hs, rfl, ?_, ?_, ?_, ?_⟩
  · rw [hc]
    exact Coordinator.collecting_records hrec
  · rintro (hcol | hn)
    · rw [hc]
      exact Coordinator.after_records_idle hrec hcol
    · exact absurd hn (by decide)
  · intro hcol start hb
    rw [hc]
    exact Coordinator.building_records hrec hcol hb
  · intro hcol _ hnone
    rw [hc]
    exact Coordinator.building_opens hrec (by simp [tickCalls]) hcol hnone

theorem simulated_steps (n : Nat) (p : Peer G) : ∃ ks, Simulated p (p.steps n) n ks := by
  induction n generalizing p with
  | zero =>
    exact ⟨[], by simp, rfl, by simp [steps], rfl, fun _ => rfl, fun _ _ hb => hb,
      fun _ hn => absurd hn (by decide)⟩
  | succ n ih =>
    obtain ⟨ks, hstep⟩ := p.simulated_step
    obtain ⟨ls, hrest⟩ := ih p.step
    refine ⟨ks ++ ls, ?_, ?_, ?_, hrest.collecting.trans hstep.collecting, ?_, ?_, ?_⟩
    · intro k hk
      rcases List.mem_append.1 hk with hk | hk
      · exact hstep.records k hk
      · exact hrest.records k hk
    · rw [steps, hrest.session, hstep.session, Coordinator.after_append]
    · rw [steps, hrest.tick, hstep.tick, UInt32.add_assoc, ← UInt32.ofNat_add, Nat.add_comm 1 n]
    · rintro (hcol | hn)
      · exact (hrest.idle (Or.inl (hstep.collecting.trans hcol))).trans (hstep.idle (Or.inl hcol))
      · exact absurd hn (Nat.succ_ne_zero n)
    · intro hcol start hb
      exact hrest.keeps (hstep.collecting.trans hcol) start (hstep.keeps hcol start hb)
    · intro hcol _ hnone
      exact hrest.keeps (hstep.collecting.trans hcol) _ (hstep.opens hcol (by decide) hnone)

/-- The calls `ks` are those of a range of `n` ticks. It hands out one opinion,
on just its ticks, if there is something to simulate and the sides have not yet
been found to disagree. -/
structure RunsRange (p : Peer G) (n : Nat) (ks : List Coordinator.Call) (o : Option Opinion) :
    Prop where
  wire : (p.runRange n).value.1 = o.map Opinion.wire
  session : (p.runRange n).value.2.session =
    { p.session with coordinator := p.session.coordinator.after ks }
  tick : (p.runRange n).value.2.tick = p.tick + UInt32.ofNat n
  submitted : submitted ks = o.toList
  reports : p.session.coordinator.reports ks = []
  idle : (p.session.coordinator.after ks).current = none
  isSome : o.isSome ↔ p.session.coordinator.desynced = false ∧ 0 < n
  range : ∀ v ∈ o, v.origin = .local ∧ v.range = ⟨p.tick, some (p.tick + UInt32.ofNat n)⟩

/-- What is in the making when `n` ticks have been simulated. -/
theorem Simulated.current (hsim : Simulated p q n ks) (hc : p.session.coordinator.current = none)
    (hreplay : p.session.coordinator.config.replay = false) :
    if p.session.coordinator.desynced = false ∧ 0 < n then
      q.session.coordinator.desynced = false ∧ Building p.tick q.session.coordinator
    else q.session.coordinator.current = none := by
  have hcol := Coordinator.collecting_eq hreplay
  split
  next hopen =>
    rw [hopen.1] at hcol
    exact ⟨Coordinator.desynced_of_collecting (hsim.collecting.trans hcol),
      hsim.opens hcol hopen.2 hc⟩
  next hopen =>
    rw [hsim.idle ?_]
    · exact hc
    · by_cases hn : n = 0
      · exact Or.inr hn
      · left
        have hdes : p.session.coordinator.desynced ≠ false :=
          fun hd => hopen ⟨hd, Nat.pos_of_ne_zero hn⟩
        simpa [hcol] using hdes

/-- A range is its simulation and then the calls that close it. -/
theorem Simulated.session_runRange (hsim : Simulated p (p.steps n) n ks) :
    (p.runRange n).value.2.session =
      { p.session with
        coordinator := p.session.coordinator.after
          (ks ++ (p.steps n).session.coordinatorCalls (.finishLocal (p.steps n).tick)) } := by
  have hc : (p.steps n).session.coordinator = p.session.coordinator.after ks :=
    congrArg Session.coordinator hsim.session
  rw [Coordinator.after_append, ← hc]
  refine ((p.steps n).session.finishLocal_eq (p.steps n).tick).trans ?_
  rw [hsim.session]

theorem Simulated.runsRange {o : Option Opinion} (hsim : Simulated p (p.steps n) n ks)
    (hval : ((p.steps n).session.finishLocal (p.steps n).tick).value.1 = o)
    (hsub : submitted
      ((p.steps n).session.coordinatorCalls (.finishLocal (p.steps n).tick)) = o.toList)
    (hidle : ((p.steps n).session.finishLocal (p.steps n).tick).value.2.coordinator.current = none)
    (hsome : o.isSome ↔ p.session.coordinator.desynced = false ∧ 0 < n)
    (hrange : ∀ v ∈ o, v.origin = .local ∧ v.range = ⟨p.tick, some (p.tick + UInt32.ofNat n)⟩) :
    p.RunsRange n
      (ks ++ (p.steps n).session.coordinatorCalls (.finishLocal (p.steps n).tick)) o := by
  obtain ⟨hquiet, hreports⟩ := Coordinator.quiet_records hsim.records p.session.coordinator
  have hsession := (p.steps n).session.finishLocal_eq (p.steps n).tick
  have hc : (p.steps n).session.coordinator = p.session.coordinator.after ks :=
    congrArg Session.coordinator hsim.session
  refine ⟨congrArg (Option.map Opinion.wire) hval, hsim.session_runRange, hsim.tick, ?_, ?_, ?_,
    hsome, hrange⟩
  · rw [Coordinator.submitted_append, hquiet, hsub, List.nil_append]
  · rw [Coordinator.reports_append, hreports, ← hc, List.nil_append]
    exact ((p.steps n).session.perform_coordinator _).2.symm
  · rw [Coordinator.after_append, ← hc]
    rw [hsession] at hidle
    exact hidle

theorem exists_runsRange (p : Peer G) (n : Nat) (hc : p.session.coordinator.current = none)
    (hreplay : p.session.coordinator.config.replay = false) : ∃ ks o, p.RunsRange n ks o := by
  obtain ⟨ks, hsim⟩ := p.simulated_steps n
  have hcur := hsim.current hc hreplay
  by_cases hopen : p.session.coordinator.desynced = false ∧ 0 < n
  · rw [if_pos hopen] at hcur
    obtain ⟨hd, o, ho, horigin, hstart⟩ := hcur
    obtain ⟨hval, hidle, hcalls⟩ := Session.finishLocal_closes ho hd (p.steps n).tick
    refine ⟨_, _, hsim.runsRange hval (by rw [hcalls]; rfl) hidle (by simp [hopen]) ?_⟩
    rintro v ⟨⟩
    refine ⟨horigin, ?_⟩
    rw [← hsim.tick]
    exact congrArg (TickRange.mk · (some (p.steps n).tick)) hstart
  · rw [if_neg hopen] at hcur
    obtain ⟨hval, hcalls⟩ := Session.finishLocal_idle hcur (p.steps n).tick
    exact ⟨_, none, hsim.runsRange (by rw [hval]) (by rw [hcalls]; rfl) (by rw [hval, hcur])
      (by simp [hopen]) (by simp)⟩

end Peer

end Lockstep
