import Lockstep.Proofs.Coordinator.Verdict

/-! The two sides exchanged. A coordinator treats them alike: if every opinion comes from the
other side, a run gives the same answers and leads to the same state with the sides exchanged. -/
namespace Lockstep

/-- The same opinion, held by the other side. -/
def Opinion.invert (o : Opinion) : Opinion := { o with origin := o.origin.invert }

namespace Opinion
variable (o : Opinion)

@[simp] theorem origin_invert : o.invert.origin = o.origin.invert := rfl

@[simp] theorem start_invert : o.invert.start = o.start := rfl

@[simp] theorem samples_invert (k : Category) : o.invert.samples k = o.samples k := by
  cases k <;> rfl

/-- Comparisons do not look at the sides. -/
@[simp] theorem disagreement?_invert (a b : Opinion) :
    a.invert.disagreement? b.invert = a.disagreement? b := by
  simp only [disagreement?, samples_invert]
  rfl

@[simp] theorem traceDiff?_invert (a b : Opinion) :
    a.invert.traceDiff? b.invert = a.traceDiff? b := rfl

end Opinion

theorem Origin.invert_inj {x y : Origin} : x.invert = y.invert ↔ x = y := by
  cases x <;> cases y <;> simp [Origin.invert]

/-- The same entry, about the other side. -/
def LogEntry.invert : LogEntry → LogEntry
  | .evicting origin tick => .evicting origin.invert tick
  | .discardingStale origin tick => .discardingStale origin.invert tick
  | e => e

/-- A computation whose value and log are told with the sides exchanged. -/
def Logged.invert {α : Type} (f : α → α) (m : Logged α) : Logged α :=
  ⟨f m.value, m.log.map LogEntry.invert⟩

namespace Logged
variable {α β : Type} {f : α → α} {h : β → β}

theorem invert_pure (a : α) : (pure a : Logged α).invert f = pure (f a) := rfl

theorem invert_bind {m m' : Logged α} {g g' : α → Logged β} (hm : m' = m.invert f)
    (hg : ∀ a, g' (f a) = (g a).invert h) : m' >>= g' = (m >>= g).invert h := by
  have hvalue : (g' (f m.value)).value = h (g m.value).value :=
    congrArg Logged.value (hg m.value)
  have hlog : (g' (f m.value)).log = (g m.value).log.map LogEntry.invert :=
    congrArg Logged.log (hg m.value)
  rw [hm]
  refine ext ?_ ?_
  · exact hvalue
  · simp [invert, hlog]

/-- A step that does not tell the sides is the same either way. -/
theorem invert_bind_id {m : Logged α} {g g' : α → Logged β} (hm : m.invert id = m)
    (hg : ∀ a, g' a = (g a).invert h) : m >>= g' = (m >>= g).invert h :=
  invert_bind hm.symm hg

end Logged

namespace Pool

/-- A pool of opinions of the other side. -/
def invert (p : Pool) : Pool := { p with free := p.free.map Opinion.invert }

theorem release_invert (p : Pool) (o : Opinion) :
    p.invert.release o.invert = (p.release o).invert invert := by
  simp only [release, invert, List.length_map]
  split <;> rfl

theorem evict_invert (p : Pool) (o : Opinion) :
    p.invert.evict o.invert = (p.evict o).invert invert := by
  rw [evict, evict]
  exact Logged.invert_bind (f := id) rfl fun _ => p.release_invert o

theorem evictAll_invert (p : Pool) (os : List Opinion) :
    p.invert.evictAll (os.map Opinion.invert) = (p.evictAll os).invert invert := by
  induction os generalizing p with
  | nil => rfl
  | cons o os ih =>
    simp only [evictAll, List.map_cons, List.foldlM_cons]
    exact Logged.invert_bind (p.evict_invert o) ih

end Pool

/-- The same conflict, with the sides exchanged. -/
def Conflict.invert (k : Conflict) : Conflict :=
  { k with first := k.first.invert, second := k.second.invert }

def Phase.invert : Phase → Phase
  | .conflict k => .conflict k.invert
  | p => p

/-- The same report, with the sides exchanged: the local opinion is the one that was remote. The
cause and the place where the traces part are the same. -/
def Report.invert (r : Report) : Report :=
  { r with localOpinion := r.remoteOpinion.invert, remoteOpinion := r.localOpinion.invert }

/-- Which of the two opinions is local is told by the origin of the first, and traces part at the
same place from either side. -/
theorem Conflict.report_invert (k : Conflict) (lastValid : Option Tick)
    (arbiterAtLastValid : Bool) :
    k.invert.report lastValid arbiterAtLastValid =
      (k.report lastValid arbiterAtLastValid).invert := by
  obtain ⟨a, b, cause⟩ := k
  cases ha : a.origin <;>
    simp [report, Conflict.invert, Report.invert, ha, Origin.invert, Origin.isLocal,
      Opinion.traceDiff?_comm a b]

namespace Coordinator

/-- The same coordinator, with the sides exchanged. -/
def invert (c : Coordinator) : Coordinator :=
  { c with
    backlog := c.backlog.map Opinion.invert
    current := c.current.map Opinion.invert
    pool := c.pool.invert
    phase := c.phase.invert }

/-- An answer says nothing of the sides. -/
def invertAnswer {ρ : Type} (x : ρ × Coordinator) : ρ × Coordinator := (x.1, x.2.invert)

variable (c : Coordinator) (o : Opinion)

@[simp] theorem desynced_invert : c.invert.desynced = c.desynced := by
  simp only [desynced, invert]
  cases c.phase <;> rfl

theorem recycle_invert : c.invert.recycle o.invert = (c.recycle o).invert invert :=
  Logged.invert_bind (c.pool.release_invert o) fun _ => rfl

theorem trimBacklog_invert : c.invert.trimBacklog = c.trimBacklog.invert invert := by
  rw [trimBacklog, trimBacklog]
  cases hc : c.backlog with
  | nil => simp only [invert, hc, List.map_nil, Logged.invert_pure]
  | cons oldest rest =>
    simp only [invert, hc, List.map_cons, List.length_map]
    split
    · exact Logged.invert_bind (c.pool.evict_invert oldest) fun _ => rfl
    · simp only [Logged.invert_pure, invert, hc, List.map_cons]

theorem evictBefore_invert (tick : Tick) :
    c.invert.evictBefore tick = (c.evictBefore tick).invert invert := by
  rw [evictBefore, evictBefore]
  simp only [invert, List.dropWhile_map, List.takeWhile_map, Function.comp_def,
    Opinion.start_invert]
  exact Logged.invert_bind (c.pool.evictAll_invert _) fun _ => rfl

theorem halt_invert (k : Conflict) :
    c.invert.halt k.invert = (c.halt k).invert invert := by
  rw [halt, halt]
  cases hc : c.current with
  | none =>
    simp only [invert, hc, Option.map_none]
    rfl
  | some o =>
    simp only [invert, hc, Option.map_some]
    exact Logged.invert_bind (c.pool.release_invert o) fun _ => rfl

/-- Whether two opinions agree does not depend on who holds them. -/
theorem settle_invert (old new : Opinion) :
    c.invert.settle old.invert new.invert = (c.settle old new).invert invertAnswer := by
  rw [settle, settle, Opinion.disagreement?_invert]
  cases old.disagreement? new with
  | none =>
    refine Logged.invert_bind_id rfl fun _ => ?_
    refine Logged.invert_bind (c.recycle_invert old) fun d => ?_
    exact Logged.invert_bind (d.recycle_invert new) fun _ => rfl
  | some cause =>
    have hwarn : (warnRanges cause).invert id = warnRanges cause := by
      cases cause <;> rfl
    refine Logged.invert_bind_id hwarn fun _ => ?_
    refine Logged.invert_bind_id rfl fun _ => ?_
    exact Logged.invert_bind (c.halt_invert ⟨old, new, cause⟩) fun _ => rfl

theorem align_invert :
    c.invert.align o.invert = (c.align o).invert invertAnswer := by
  rw [align, align]
  refine Logged.invert_bind (c.evictBefore_invert o.start) fun d => ?_
  cases hd : d.backlog with
  | nil =>
    simp only [invert, hd, List.map_nil]
    rfl
  | cons front rest =>
    rw [show d.invert.backlog = front.invert :: rest.map Opinion.invert by simp [invert, hd]]
    by_cases hstart : front.start = o.start
    · have hstart' : front.invert.start = o.invert.start := hstart
      dsimp only
      rw [if_pos hstart, if_pos hstart']
      exact { d with backlog := rest }.settle_invert front o
    · have hstart' : front.invert.start ≠ o.invert.start := hstart
      dsimp only
      rw [if_neg hstart, if_neg hstart']
      refine Logged.invert_bind (f := id) rfl fun _ => ?_
      exact Logged.invert_bind (d.recycle_invert o) fun _ => rfl

/-- A coordinator told everything about the other side answers in the same way, and what it then
knows is about the other side. -/
theorem submit_invert : c.invert.submit o.invert = (c.submit o).invert invertAnswer := by
  rw [submit, submit, desynced_invert]
  split
  · exact Logged.invert_bind (c.recycle_invert o) fun _ => rfl
  · cases hc : c.backlog with
    | nil =>
      simp only [invert, hc, List.map_nil]
      rfl
    | cons front rest =>
      have htrim := { c with backlog := front :: rest ++ [o] }.trimBacklog_invert
      simp only [invert, hc, List.map_cons, Opinion.origin_invert, Origin.invert_inj]
      by_cases hside : front.origin = o.origin
      · rw [if_pos hside, if_pos hside]
        simp only [invert, List.map_append, List.map_cons, List.map_nil] at htrim
        exact Logged.invert_bind htrim fun _ => rfl
      · rw [if_neg hside, if_neg hside, ← c.align_invert o]
        simp only [invert, hc, List.map_cons]

theorem submitAll_invert (os : List Opinion) :
    c.invert.submitAll (os.map Opinion.invert) = (c.submitAll os).invert invertAnswer := by
  induction os generalizing c with
  | nil => rfl
  | cons o os ih =>
    refine Logged.invert_bind (c.submit_invert o) fun x => ?_
    exact Logged.invert_bind (ih x.2) fun _ => rfl

theorem processPending_invert :
    c.invert.processPending =
      (c.processPending.1.map Report.invert, c.processPending.2.invert) := by
  rw [processPending, processPending]
  cases hc : c.phase with
  | conflict k => simp [invert, hc, Phase.invert, Conflict.report_invert]
  | _ => simp [invert, hc, Phase.invert]

/-- A conflict that nobody has asked for yet is still to be reported. -/
theorem report_of_desynced {config : Config} {os : List Opinion}
    (hd : ((new config).submitAll os).value.2.desynced = true) :
    ∃ r, ((new config).submitAll os).value.2.processPending.1 = [r] := by
  have hj := judged_run config (os.map .submit)
  rw [reports_submits, after_submits] at hj
  cases hj with
  | running hp => simp [desynced, hp] at hd
  | @ended k _ _ _ _ _ hp =>
    rcases hp with ⟨hp, -⟩ | ⟨-, hr⟩
    · exact ⟨k.report _ _, by rw [processPending, hp]⟩
    · cases hr

/-- Neither side is privileged. If every opinion of a run of submissions comes from the other side,
the outcomes are the same, and so are the last valid tick and whether the sides have parted; the
same opinions wait, and the same is logged, with the sides exchanged; and the report of a desync
has the same cause and the same place, with what was local and what was remote exchanged. -/
theorem sides_exchangeable (config : Config) (os : List Opinion) :
    let x := (new config).submitAll os
    let y := (new config).submitAll (os.map Opinion.invert)
    y.value.1 = x.value.1 ∧
      y.value.2.lastValid = x.value.2.lastValid ∧
      y.value.2.desynced = x.value.2.desynced ∧
      y.value.2.backlog = x.value.2.backlog.map Opinion.invert ∧
      y.log = x.log.map LogEntry.invert ∧
      (x.value.2.desynced = true → ∃ r, x.value.2.processPending.1 = [r] ∧
        y.value.2.processPending.1 = [r.invert]) := by
  intro x y
  have hy : y = x.invert invertAnswer := (new config).submitAll_invert os
  have hstate : y.value.2 = x.value.2.invert := by rw [hy]; rfl
  refine ⟨by rw [hy]; rfl, by rw [hstate]; rfl, by rw [hstate, desynced_invert],
    by rw [hstate]; rfl, by rw [hy]; rfl, ?_⟩
  intro hd
  obtain ⟨r, hr⟩ := report_of_desynced hd
  exact ⟨r, hr, by rw [hstate, processPending_invert, hr, List.map_singleton]⟩

/-- The opinion that comes first is remote in the one run and local in the other. The report names
the same tick, sample and trace entry in both. -/
theorem sides_exchangeable_desync :
    let theirs : Opinion := { origin := .remote, start := 0, world := [1], hashes := [7, 8] }
    let ours : Opinion := { origin := .local, start := 0, world := [2], hashes := [7, 9] }
    let x := (new {}).submitAll [theirs, ours]
    let y := (new {}).submitAll [theirs.invert, ours.invert]
    y.value.1 = [.queued, .desynced] ∧
      ∃ r, x.value.2.processPending.1 = [r] ∧ y.value.2.processPending.1 = [r.invert] ∧
        r.cause = .divergence ⟨.world, 0, .state 1 2⟩ ∧ r.diffAt = some 1 ∧
        r.localOpinion = ours ∧ r.invert.localOpinion = theirs.invert := by
  intro theirs ours x y
  obtain ⟨houtcomes, -, -, -, -, hreport⟩ := sides_exchangeable {} [theirs, ours]
  have hx : x.value.1 = [.queued, .desynced] := by decide
  obtain ⟨r, hr, hr'⟩ := hreport (by decide)
  have hsees : x.value.2.processPending.1.map
      (fun r => (r.cause, r.diffAt, r.localOpinion, r.remoteOpinion)) =
        [(.divergence ⟨.world, 0, .state 1 2⟩, some 1, ours, theirs)] := by
    decide
  rw [hr, List.map_singleton] at hsees
  injection hsees with hsees
  obtain ⟨hcause, hdiff, hlocal, hremote⟩ : r.cause = .divergence ⟨.world, 0, .state 1 2⟩ ∧
      r.diffAt = some 1 ∧ r.localOpinion = ours ∧ r.remoteOpinion = theirs := by
    simpa using hsees
  exact ⟨houtcomes.trans hx, r, hr, hr', hcause, hdiff, hlocal, congrArg Opinion.invert hremote⟩

end Coordinator

end Lockstep
