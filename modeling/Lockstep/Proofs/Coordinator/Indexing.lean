import Lockstep.Proofs.Coordinator.Gathering

/-! The trace log of the local opinion: one hash for each entry, whatever recorded them and
whatever object they were recorded in. -/
namespace Lockstep

namespace Opinion
variable {o p : Opinion}

/-- The hashes of an opinion are those of its entries, index by index. -/
def Indexed (o : Opinion) : Prop := o.hashes = o.entries.map TraceEntry.hash

theorem Indexed.of_alike (h : o.Indexed) (ha : p.Alike o) : p.Indexed := by
  rw [Indexed, ha.hashes, ha.entries]
  exact h

theorem Indexed.marked (h : o.Indexed) (on : Bool) :
    (if on then o.markSimulating else o).Indexed := by
  cases on <;> exact h

end Opinion

namespace Coordinator
variable {c : Coordinator} {k : Call} {traces : Bool} {write : Opinion → Opinion} {o : Opinion}

/-- The opinion in the making, if there is one, has the hashes of its entries. -/
def Indexed (c : Coordinator) : Prop := ∀ o, c.current = some o → o.Indexed

theorem indexed_of_idle (h : c.current = none) : c.Indexed := by
  intro o ho
  rw [h] at ho
  cases ho

/-- A call records an entry together with its hash, or neither. -/
theorem Call.Adds.indexed (h : k.Adds traces write) (ho : o.Indexed) : (write o).Indexed := by
  rw [Opinion.Indexed, h.hashes, h.entries, ho, List.map_append]
  cases k.entry? traces <;> rfl

/-- What is written to is the opinion in the making, or else one with nothing in it. -/
theorem Indexed.openCurrent (h : c.Indexed) (tick : Tick) : (c.openCurrent tick).1.Indexed := by
  refine Opinion.Indexed.of_alike ?_ (c.alike_openCurrent tick)
  rw [making]
  cases hc : c.current with
  | none => rfl
  | some o => exact h o hc

theorem Indexed.record (h : c.Indexed) (hw : k.Adds traces write) (tick : Tick) :
    (c.record tick write).Indexed := by
  rw [Coordinator.record]
  split
  · rintro o ho
    cases ho
    exact hw.indexed ((h.openCurrent tick).marked _)
  · exact h

theorem Indexed.perform (h : c.Indexed) (hd : (c.perform k).value.2.desynced = false) :
    (c.perform k).value.2.Indexed := by
  cases hrecords : k.recordsFor? c.config.logTraces with
  | some tick =>
    obtain ⟨write, hw, hc⟩ := perform_recordsFor? hrecords
    rw [hc]
    exact h.record hw tick
  | none =>
    by_cases htakes : k.Takes
    · cases k with
      | takeLocal stop => exact indexed_of_idle (c.current_takeLocal stop)
      | _ => exact absurd htakes id
    · intro o ho
      rw [current_perform hrecords htakes hd] at ho
      exact h o ho

/-- Nothing that a coordinator goes through sets the hashes of its local opinion apart from the
entries. -/
theorem indexed_run (config : Config) (ks : List Call) : ((new config).after ks).Indexed := by
  induction ks using List.reverseRecOn with
  | nil => exact indexed_of_idle rfl
  | append_singleton ks k ih =>
    cases hd : ((new config).after (ks ++ [k])).desynced with
    | true => exact indexed_of_idle (halted_run hd).current
    | false =>
      rw [after_append] at hd ⊢
      exact ih.perform hd

/-- What is handed out is the opinion in the making but for its end. -/
theorem Indexed.takeLocal (h : c.Indexed) {stop : Tick}
    (ho : (c.takeLocal stop).value.1 = some o) : o.Indexed := by
  rw [Coordinator.takeLocal] at ho
  split at ho
  · cases ho
  next p hp =>
    split at ho
    · cases ho
    · cases ho
      exact h p hp

end Coordinator

end Lockstep
