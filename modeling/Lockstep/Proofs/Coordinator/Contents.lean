import Lockstep.Proofs.Coordinator.Recording

/-! What recordings write into the opinion in the making: every state and every hash, in
order, and nothing else. -/
namespace Lockstep.Coordinator

variable {c : Coordinator} {t : Tick} {k : Call} {ks : List Call} {category : Category}

def Call.sample? (category : Category) : Call → Option Sample
  | .addState _ k s => if k = category then some (Sample.ofState s) else none
  | _ => none

/-- The hash that a call records. Traced calls are left aside. -/
def Call.hash? : Call → Option TraceHash
  | .addInfo tick subject detail => some (InfoEntry.hash ⟨tick, subject, detail⟩)
  | _ => none

def drawn (c : Coordinator) (category : Category) : List Sample :=
  match c.current with
  | none => []
  | some o => o.samples category

def traced (c : Coordinator) : List TraceHash :=
  match c.current with
  | none => []
  | some o => o.hashes

theorem drawn_of_none (hc : c.current = none) (category : Category) : c.drawn category = [] := by
  rw [drawn, hc]

theorem traced_of_none (hc : c.current = none) : c.traced = [] := by
  rw [traced, hc]

/-- An opinion that is opened brings nothing along, not even one from the pool. -/
theorem contents_openCurrent (c : Coordinator) (t : Tick) (category : Category) :
    (c.openCurrent t).1.samples category = c.drawn category ∧
      (c.openCurrent t).1.hashes = c.traced := by
  rw [openCurrent, drawn, traced]
  cases c.current with
  | some o => exact ⟨rfl, rfl⟩
  | none =>
    dsimp only
    rw [Pool.checkout]
    cases c.pool.free with
    | nil => cases category <;> exact ⟨rfl, rfl⟩
    | cons o rest => exact ⟨o.samples_reuse t .local category, rfl⟩

/-- A record writes to the opinion in the making. The mark of catching up
changes neither samples nor hashes. -/
theorem contents_record (hcol : c.collecting = true) (t : Tick) (write : Opinion → Opinion) :
    ∃ o : Opinion, (c.record t write).current = some (write o) ∧
      (∀ category, o.samples category = c.drawn category) ∧ o.hashes = c.traced := by
  rw [record, if_pos hcol]
  by_cases hcatch : c.catchingUp = true
  · refine ⟨(c.openCurrent t).1.markSimulating, by simp [hcatch], fun category => ?_, ?_⟩
    · rw [← (c.contents_openCurrent t category).1]
      cases category <;> rfl
    · exact (c.contents_openCurrent t .world).2
  · exact ⟨(c.openCurrent t).1, by simp [hcatch],
      fun category => (c.contents_openCurrent t category).1, (c.contents_openCurrent t .world).2⟩

/-- A recording adds its sample and its hash. -/
theorem contents_perform (hk : k.Records t) (hcol : c.collecting = true) (category : Category) :
    (c.perform k).value.2.drawn category = c.drawn category ++ (k.sample? category).toList ∧
      (c.perform k).value.2.traced = c.traced ++ k.hash?.toList := by
  cases hk with
  | state j s =>
    obtain ⟨o, ho, hsamples, hhashes⟩ := contents_record hcol t (·.recordState j s)
    have hc : (c.perform (.addState t j s)).value.2.current = some (o.recordState j s) := ho
    rw [drawn, traced, hc]
    constructor
    · dsimp only
      rw [Opinion.recordState, Opinion.samples_record, hsamples, Call.sample?]
      split <;> simp
    · have hno : Call.hash? (.addState t j s) = none := rfl
      rw [hno, Option.toList_none, List.append_nil, ← hhashes]
      cases j <;> rfl
  | info subject detail =>
    obtain ⟨o, ho, hsamples, hhashes⟩ :=
      contents_record hcol t (·.logEntry (.info ⟨t, subject, detail⟩))
    have hc : (c.perform (.addInfo t subject detail)).value.2.current =
        some (o.logEntry (.info ⟨t, subject, detail⟩)) := ho
    rw [drawn, traced, hc]
    constructor
    · have hno : Call.sample? category (.addInfo t subject detail) = none := rfl
      rw [hno, Option.toList_none, List.append_nil, ← hsamples]
      cases category <;> rfl
    · dsimp only
      rw [Opinion.logEntry, hhashes]
      rfl

theorem contents_records (hks : ∀ k ∈ ks, k.Records t) (hcol : c.collecting = true)
    (category : Category) :
    (c.after ks).drawn category = c.drawn category ++ ks.filterMap (Call.sample? category) ∧
      (c.after ks).traced = c.traced ++ ks.filterMap Call.hash? := by
  induction ks generalizing c with
  | nil => simp
  | cons k ks ih =>
    obtain ⟨hk, hks⟩ := List.forall_mem_cons.1 hks
    obtain ⟨hdrawn, htraced⟩ := contents_perform hk hcol category
    obtain ⟨-, -, write, -, hc⟩ := perform_records hk c
    have hcol' : (c.perform k).value.2.collecting = true := by
      rw [hc, collecting_record, hcol]
    obtain ⟨hdrawn', htraced'⟩ := ih hks hcol'
    rw [after_cons, hdrawn', htraced', hdrawn, htraced]
    constructor
    · cases h : k.sample? category <;> simp [h]
    · cases h : k.hash? <;> simp [h]

end Lockstep.Coordinator
