import Lockstep.Proofs.Coordinator.Simulation
import Lockstep.Proofs.Coordinator.Run

/-! What a pool holds, and why it does not matter: an opinion that is used
again is like a fresh one. -/
namespace Lockstep

namespace Pool

/-- A pool that keeps at most so many opinions, and only cleared ones. -/
structure Tidy (n : Nat) (p : Pool) : Prop where
  capacity : p.capacity = n
  length_le : p.free.length ≤ n
  cleared : ∀ o ∈ p.free, o.isEmpty = true ∧ o.stop = none ∧ o.simulating = false

variable {n : Nat} {p : Pool}

theorem tidy_empty (n : Nat) : Tidy n { capacity := n } :=
  ⟨rfl, Nat.zero_le n, List.forall_mem_nil _⟩

theorem tidy_checkout (h : p.Tidy n) (start : Tick) (origin : Origin) :
    (p.checkout start origin).2.Tidy n := by
  obtain ⟨hcapacity, hlength, hcleared⟩ := id h
  rw [checkout]
  split
  next => exact h
  next o rest hfree =>
    rw [hfree] at hlength hcleared
    exact ⟨hcapacity, Nat.le_of_succ_le hlength, (List.forall_mem_cons.1 hcleared).2⟩

theorem tidy_release (h : p.Tidy n) (o : Opinion) : (p.release o).value.Tidy n := by
  obtain ⟨hcapacity, hlength, hcleared⟩ := id h
  rw [release]
  split
  next => exact h
  next hroom =>
    refine ⟨hcapacity, ?_, List.forall_mem_cons.2 ⟨⟨o.isEmpty_clear, rfl, rfl⟩, hcleared⟩⟩
    change p.free.length + 1 ≤ n
    omega

theorem tidy_evictAll (h : p.Tidy n) (os : List Opinion) : (p.evictAll os).value.Tidy n := by
  induction os generalizing p with
  | nil => exact h
  | cons o os ih => exact ih (tidy_release h o)

/-- What a pool hands out cannot be told from a fresh opinion. -/
theorem alike_checkout (p : Pool) (start : Tick) (origin : Origin) :
    (p.checkout start origin).1.Alike { origin, start } := by
  rw [checkout]
  split
  · exact .refl _
  · exact Opinion.alike_reuse _ start origin

end Pool

namespace Coordinator

section tidy
variable {n : Nat} {c : Coordinator}

theorem tidy_trimBacklog (h : c.pool.Tidy n) : c.trimBacklog.value.pool.Tidy n := by
  rw [trimBacklog]
  split
  · exact h
  split
  · exact Pool.tidy_release h _
  · exact h

theorem tidy_halt (h : c.pool.Tidy n) (k : Conflict) : (c.halt k).value.pool.Tidy n := by
  rw [halt]
  cases c.current with
  | none => exact h
  | some o => exact Pool.tidy_release h o

theorem tidy_settle (h : c.pool.Tidy n) (old new : Opinion) :
    (c.settle old new).value.2.pool.Tidy n := by
  rw [settle]
  cases old.disagreement? new with
  | none => exact Pool.tidy_release (Pool.tidy_release h old) new
  | some cause => exact tidy_halt h _

theorem tidy_align (h : c.pool.Tidy n) (o : Opinion) : (c.align o).value.2.pool.Tidy n := by
  have hevicted : (c.evictBefore o.start).value.pool.Tidy n := Pool.tidy_evictAll h _
  rw [align, Logged.value_bind]
  generalize (c.evictBefore o.start).value = d at hevicted
  cases hd : d.backlog with
  | nil => exact hevicted
  | cons front rest =>
    dsimp only
    split
    · exact tidy_settle (c := { d with backlog := rest }) hevicted front o
    · exact Pool.tidy_release hevicted o

theorem tidy_submit (h : c.pool.Tidy n) (o : Opinion) : (c.submit o).value.2.pool.Tidy n := by
  rw [submit]
  split
  · exact Pool.tidy_release h o
  split
  · exact h
  next front rest hb =>
    split
    · exact tidy_trimBacklog (c := { c with backlog := c.backlog ++ [o] }) h
    · exact tidy_align h o

theorem tidy_record (h : c.pool.Tidy n) (tick : Tick) (write : Opinion → Opinion) :
    (c.record tick write).pool.Tidy n := by
  rw [record]
  split
  next =>
    rw [openCurrent]
    cases c.current with
    | some o => exact h
    | none => exact Pool.tidy_checkout h tick .local
  next => exact h

theorem tidy_perform (h : c.pool.Tidy n) (k : Call) : (c.perform k).value.2.pool.Tidy n := by
  cases k with
  | addState tick k s => exact tidy_record h tick _
  | addInfo tick subject detail => exact tidy_record h tick _
  | addCall tick e depth site =>
    simp only [perform, addCall, Logged.value_pure]
    split
    · exact tidy_record h tick _
    · exact h
  | startCatchUp target =>
    simp only [perform, startCatchUp, Logged.value_pure]
    split <;> exact h
  | finishCatchUp => exact h
  | setArbiterPlaying playing => exact h
  | takeLocal stop =>
    simp only [perform, takeLocal, Logged.value_bind]
    split
    · exact h
    next o _ =>
      split
      · exact Pool.tidy_release h o
      · exact h
  | submit o => exact tidy_submit h o
  | processPending =>
    simp only [perform, processPending, Logged.value_pure]
    split <;> exact h

theorem tidy_run (h : c.pool.Tidy n) (ks : List Call) : (c.after ks).pool.Tidy n := by
  induction ks generalizing c with
  | nil => exact h
  | cons k ks ih => exact ih (tidy_perform h k)

end tidy

/-- The opinion that a record writes to: the one in the making, or a fresh one. -/
def making (c : Coordinator) (tick : Tick) : Opinion :=
  c.current.getD { origin := .local, start := tick }

/-- An opinion from the pool is as good as a fresh one. -/
theorem alike_openCurrent (c : Coordinator) (tick : Tick) :
    (c.openCurrent tick).1.Alike (c.making tick) := by
  rw [openCurrent, making]
  cases c.current with
  | some o => exact .refl o
  | none => exact c.pool.alike_checkout tick .local

theorem making_rel {R : Opinion → Opinion → Prop} {c d : Coordinator} (hrefl : ∀ o, R o o)
    (h : Option.Rel R c.current d.current) (tick : Tick) : R (c.making tick) (d.making tick) := by
  rw [making, making]
  generalize c.current = o, d.current = p at h
  cases h with
  | some hop => exact hop
  | none => exact hrefl _

/-- Nothing but the pool tells one coordinator from the other. -/
abbrev Alike : Coordinator → Coordinator → Prop :=
  Abreast (fun f g => f = { g with maxPooled := f.maxPooled }) Opinion.Alike
    (Option.Rel Opinion.Alike)

variable {c d : Coordinator} {k l : Call}

theorem Alike.collecting (h : c.Alike d) : c.collecting = d.collecting := by
  rw [Coordinator.collecting, Coordinator.collecting, h.config, h.desynced]

theorem Alike.logTraces (h : c.Alike d) : c.config.logTraces = d.config.logTraces := by
  rw [h.config]

/-- It does not matter whether the opinion in the making has been used before. -/
theorem Alike.openCurrent (h : c.Alike d) (tick : Tick) :
    (c.openCurrent tick).1.Alike (d.openCurrent tick).1 :=
  (c.alike_openCurrent tick).trans
    ((making_rel .refl h.current tick).trans (d.alike_openCurrent tick).symm)

theorem Alike.record {write : Opinion → Opinion} (h : c.Alike d) (tick : Tick)
    (hwrite : ∀ {o p : Opinion}, o.Alike p → (write o).Alike (write p)) :
    (c.record tick write).Alike (d.record tick write) := by
  rw [Coordinator.record, Coordinator.record, h.collecting, h.catchingUp]
  split
  · refine h.withCurrent (.some (hwrite ?_)) _ _
    split
    · exact (h.openCurrent tick).markSimulating
    · exact h.openCurrent tick
  · exact h

theorem Alike.takeLocal (h : c.Alike d) (stop : Tick) :
    (c.takeLocal stop).Like (HandOuts .full Alike) (d.takeLocal stop) := by
  have hcurrent := h.current
  rw [Coordinator.takeLocal, Coordinator.takeLocal, h.desynced]
  generalize c.current = o, d.current = p at hcurrent
  cases hcurrent with
  | none => exact Logged.like_pure ⟨.none, h⟩
  | some hop =>
    dsimp only
    split
    · exact ⟨⟨.none, h.withCurrent .none _ _⟩, by simp⟩
    · exact Logged.like_pure ⟨.some (hop.finish stop), h.withCurrent .none c.pool d.pool⟩

/-- Calls are answered alike, whatever the pools hold. -/
theorem Alike.perform (h : c.Alike d) (hk : k.Like .full l) :
    (c.perform k).Like (Answers .full Alike) (d.perform l) := by
  by_cases hwrites : k.Writes
  · have hrecord : ∀ {write : Opinion → Opinion} (tick : Tick),
        (∀ {o p : Opinion}, o.Alike p → (write o).Alike (write p)) →
        (pure (.done, c.record tick write) : Logged (Reply × Coordinator)).Like
          (Answers .full Alike) (pure (.done, d.record tick write)) :=
      fun tick hwrite => Logged.like_pure ⟨.done, h.record tick hwrite⟩
    cases hk with
    | submit hab => exact absurd hwrites id
    | same k =>
      cases k with
      | addState tick k s => exact hrecord tick fun hop => hop.recordState k s
      | addInfo tick subject detail => exact hrecord tick fun hop => hop.logEntry _
      | addCall tick e depth site =>
        simp only [Coordinator.perform, addCall, h.logTraces]
        split
        · exact hrecord tick fun hop => hop.logEntry _
        · exact Logged.like_pure ⟨.done, h⟩
      | takeLocal stop =>
        exact (h.takeLocal stop).bind fun hxy => Logged.like_pure ⟨.taken hxy.1, hxy.2⟩
      | _ => exact absurd hwrites id
  · exact h.perform_aside .none hk hwrites

end Coordinator

end Lockstep
