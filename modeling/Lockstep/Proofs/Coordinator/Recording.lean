import Lockstep.Proofs.Coordinator.Run

/-! Recording a local opinion: what it makes of the coordinator, and of which
range the opinion is in the end. -/
namespace Lockstep.Coordinator

variable {c : Coordinator} {t start : Tick} {k : Call} {ks : List Call} {o : Opinion}
  {write : Opinion → Opinion}

/-- The call records something for the tick. -/
inductive Call.Records (t : Tick) : Call → Prop
  | state (category : Category) (s : GeneratorState) : Records t (.addState t category s)
  | info (subject detail : String) : Records t (.addInfo t subject detail)

/-- A local opinion that starts on this tick is in the making. -/
def Building (start : Tick) (c : Coordinator) : Prop :=
  ∃ o, c.current = some o ∧ o.origin = .local ∧ o.start = start

theorem perform_records (hk : k.Records t) (c : Coordinator) :
    k.opinion? = none ∧ (c.perform k).value.1 = .done ∧
      ∃ write : Opinion → Opinion, (∀ o, (write o).origin = o.origin ∧ (write o).start = o.start) ∧
        (c.perform k).value.2 = c.record t write := by
  cases hk with
  | state category s =>
    refine ⟨rfl, rfl, (·.recordState category s), fun o => ⟨?_, ?_⟩, rfl⟩
    · exact o.origin_record category _
    · exact congrArg TickRange.start (o.range_record category _)
  | info subject detail =>
    exact ⟨rfl, rfl, (·.logEntry (.info ⟨t, subject, detail⟩)), fun o => ⟨rfl, rfl⟩, rfl⟩

@[simp] theorem collecting_record (c : Coordinator) (t : Tick) (write : Opinion → Opinion) :
    (c.record t write).collecting = c.collecting := by
  obtain ⟨current, pool, h⟩ := c.record_eq t write
  rw [h]
  rfl

/-- The first record opens the opinion, and the later ones keep its start. -/
theorem building_record (hcol : c.collecting = true)
    (hw : ∀ o, (write o).origin = o.origin ∧ (write o).start = o.start)
    (hb : Building start c ∨ (c.current = none ∧ t = start)) :
    Building start (c.record t write) := by
  have hopen : (c.openCurrent t).1.origin = .local ∧ (c.openCurrent t).1.start = start := by
    rcases hb with ⟨o, ho, horigin, hstart⟩ | ⟨hnone, rfl⟩
    · rw [openCurrent, ho]
      exact ⟨horigin, hstart⟩
    · rw [openCurrent, hnone]
      dsimp only
      rw [Pool.checkout]
      cases c.pool.free <;> exact ⟨rfl, rfl⟩
  rw [record, if_pos hcol]
  by_cases hcatch : c.catchingUp = true
  · refine ⟨write (c.openCurrent t).1.markSimulating, by simp [hcatch], ?_, ?_⟩
    · exact (hw _).1.trans hopen.1
    · exact (hw _).2.trans hopen.2
  · refine ⟨write (c.openCurrent t).1, by simp [hcatch], ?_, ?_⟩
    · exact (hw _).1.trans hopen.1
    · exact (hw _).2.trans hopen.2

/-- Recordings neither submit nor report. -/
theorem quiet_records (hks : ∀ k ∈ ks, ∃ t, k.Records t) (c : Coordinator) :
    submitted ks = [] ∧ c.reports ks = [] := by
  induction ks generalizing c with
  | nil => exact ⟨rfl, rfl⟩
  | cons k ks ih =>
    obtain ⟨⟨t, hk⟩, hks⟩ := List.forall_mem_cons.1 hks
    obtain ⟨ho, hr, -⟩ := perform_records hk c
    obtain ⟨hs, hrs⟩ := ih hks (c.perform k).value.2
    rw [submitted_cons, reports_cons, ho, hr, hs, hrs]
    exact ⟨rfl, rfl⟩

theorem collecting_records (hks : ∀ k ∈ ks, k.Records t) :
    (c.after ks).collecting = c.collecting := by
  induction ks generalizing c with
  | nil => rfl
  | cons k ks ih =>
    obtain ⟨hk, hks⟩ := List.forall_mem_cons.1 hks
    obtain ⟨-, -, write, -, hc⟩ := perform_records hk c
    rw [after_cons, ih hks, hc, collecting_record]

theorem building_records (hks : ∀ k ∈ ks, k.Records t) (hcol : c.collecting = true)
    (hb : Building start c) : Building start (c.after ks) := by
  induction ks generalizing c with
  | nil => exact hb
  | cons k ks ih =>
    obtain ⟨hk, hks⟩ := List.forall_mem_cons.1 hks
    obtain ⟨-, -, write, hw, hc⟩ := perform_records hk c
    rw [after_cons, hc]
    refine ih hks ?_ ?_
    · rw [collecting_record, hcol]
    · exact building_record hcol hw (Or.inl hb)

theorem building_opens (hks : ∀ k ∈ ks, k.Records t) (hne : ks ≠ [])
    (hcol : c.collecting = true) (hc : c.current = none) : Building t (c.after ks) := by
  cases ks with
  | nil => exact absurd rfl hne
  | cons k ks =>
    obtain ⟨hk, hks⟩ := List.forall_mem_cons.1 hks
    obtain ⟨-, -, write, hw, he⟩ := perform_records hk c
    rw [after_cons, he]
    refine building_records hks ?_ ?_
    · rw [collecting_record, hcol]
    · exact building_record hcol hw (Or.inr ⟨hc, rfl⟩)

/-- A coordinator that does not collect ignores recordings. -/
theorem after_records_idle (hks : ∀ k ∈ ks, k.Records t) (hcol : c.collecting = false) :
    c.after ks = c := by
  induction ks with
  | nil => rfl
  | cons k ks ih =>
    obtain ⟨hk, hks⟩ := List.forall_mem_cons.1 hks
    obtain ⟨-, -, write, -, hc⟩ := perform_records hk c
    have hskip : c.record t write = c := by
      rw [record, hcol]
      rfl
    rw [after_cons, hc, hskip, ih hks]

end Lockstep.Coordinator
