import Lockstep.Proofs.Coordinator.Contents
import Lockstep.Proofs.Coordinator.Halted
import Lockstep.Proofs.Coordinator.Simulation
import Lockstep.Proofs.Peer.Range

/-! Traced calls leave no sample, but the first of them may open an opinion. What
follows from that for a coordinator that traces calls and one that does not. -/
namespace Lockstep.Coordinator

variable {c c' d : Coordinator} {t u : Option Tick} {k l : Call} {ks : List Call} {o : Opinion}
  {met : Option Opinion} {r : Outcome} {tick stop : Tick} {write : Opinion → Opinion}

/-- The tick that the opinion in the making starts on after a call, as it was
`t` before. With `traces`, traced calls open an opinion as well. -/
def Call.opening (traces : Bool) (t : Option Tick) : Call → Option Tick
  | .addState tick _ _ | .addInfo tick _ _ => t.or (some tick)
  | .addCall tick _ _ _ => if traces then t.or (some tick) else t
  | .takeLocal _ => none
  | _ => t

/-- A coordinator that collects has an opinion in the making just if something
has opened one, and it starts there. -/
inductive Opened (c : Coordinator) : Option Tick → Prop
  | idle (t : Option Tick) (hcol : c.collecting = false) (hc : c.current = none) : Opened c t
  | none (hc : c.current = none) : Opened c none
  | some {start : Tick} (hcol : c.collecting = true) (hb : Building start c) :
      Opened c (some start)

theorem Opened.of_eq (h : Opened c t) (hcol : c'.collecting = c.collecting)
    (hc : c'.current = c.current) : Opened c' t := by
  cases h with
  | idle t hidle hnone => exact .idle t (hcol.trans hidle) (hc.trans hnone)
  | none hnone => exact .none (hc.trans hnone)
  | some hcollects hb =>
    obtain ⟨o, ho, horigin, hstart⟩ := hb
    exact .some (hcol.trans hcollects) ⟨o, hc.trans ho, horigin, hstart⟩

theorem opened_record (h : Opened c t)
    (hw : ∀ o, (write o).origin = o.origin ∧ (write o).start = o.start) :
    Opened (c.record tick write) (t.or (some tick)) := by
  cases hcol : c.collecting with
  | false =>
    have hskip : c.record tick write = c := by simp [record, hcol]
    rw [hskip]
    cases h with
    | idle t hidle hnone => exact .idle _ hidle hnone
    | none hnone => exact .idle _ hcol hnone
    | some hcollects hb => simp [hcol] at hcollects
  | true =>
    have hstays : (c.record tick write).collecting = true := by rw [collecting_record, hcol]
    cases h with
    | idle t hidle hnone => simp [hcol] at hidle
    | none hnone => exact .some hstays (building_record hcol hw (Or.inr ⟨hnone, rfl⟩))
    | some hcollects hb => exact .some hstays (building_record hcol hw (Or.inl hb))

theorem collecting_submission (hs : Submission c o met r c') (hr : r ≠ .desynced) :
    c'.collecting = c.collecting := by
  cases hs with
  | disagreeing => exact absurd rfl hr
  | _ => rfl

theorem opened_submit (h : Opened c t) (o : Opinion) : Opened (c.submit o).value.2 t := by
  by_cases hr : (c.submit o).value.1 = .desynced
  · have hhalted := halted_submit hr
    exact .idle t hhalted.collecting hhalted.current
  · have hs := c.submission o
    refine h.of_eq (collecting_submission hs hr) ?_
    rw [(rest_submission hs).2.2.1, if_neg hr]

theorem current_takeLocal (c : Coordinator) (stop : Tick) :
    (c.takeLocal stop).value.2.current = none := by
  rw [takeLocal]
  cases hc : c.current with
  | none => exact hc
  | some o =>
    dsimp only
    split <;> rfl

/-- What is in the making starts on the tick of what was recorded first. -/
theorem opened_perform (h : Opened c t) (k : Call) :
    Opened (c.perform k).value.2 (k.opening c.config.logTraces t) := by
  have hrecords : ∀ {tick : Tick} {k : Call}, k.Records tick →
      Opened (c.perform k).value.2 (t.or (some tick)) := by
    intro tick k hk
    obtain ⟨-, -, write, hw, he⟩ := perform_records hk c
    rw [he]
    exact opened_record h hw
  cases k with
  | addState tick k s => exact hrecords (.state k s)
  | addInfo tick subject detail => exact hrecords (.info subject detail)
  | addCall tick e depth site =>
    simp only [perform, addCall, Call.opening, Logged.value_pure]
    split
    · exact opened_record h fun o => ⟨rfl, rfl⟩
    · exact h
  | startCatchUp target =>
    refine h.of_eq ?_ ?_ <;>
      simp only [perform, startCatchUp, Logged.value_pure] <;> split <;> rfl
  | finishCatchUp => exact h.of_eq rfl rfl
  | setArbiterPlaying playing => exact h.of_eq rfl rfl
  | takeLocal stop => exact .none (c.current_takeLocal stop)
  | submit o => exact opened_submit h o
  | processPending =>
    refine h.of_eq ?_ ?_
    · rw [perform_processPending, collecting, collecting, config_processPending,
        desynced_processPending]
    · rw [perform_processPending, current_processPending]

/-- An opinion that is handed out starts where it was opened. -/
theorem start_of_takeLocal (h : Opened c t) (ho : (c.takeLocal stop).value.1 = some o) :
    t = some o.start := by
  cases h with
  | idle t hcol hc =>
    rw [takeLocal_none hc] at ho
    cases ho
  | none hc =>
    rw [takeLocal_none hc] at ho
    cases ho
  | @some start hcol hb =>
    obtain ⟨p, hp, -, hstart⟩ := hb
    rw [takeLocal_some hp (desynced_of_collecting hcol)] at ho
    cases ho
    exact congrArg Option.some hstart.symm

/-- The first settings trace calls, and this is all that they differ in. -/
def Traces (f g : Config) : Prop := f.logTraces = true ∧ g = { f with logTraces := false }

/-- The same samples, or none. -/
def SameSamples (o p : Option Opinion) : Prop :=
  ∀ k, o.elim [] (·.samples k) = p.elim [] (·.samples k)

/-- Two coordinators that traced calls alone have set apart. -/
abbrev Traced : Coordinator → Coordinator → Prop :=
  Abreast Traces Opinion.SameDraws SameSamples

theorem drawn_eq (c : Coordinator) (k : Category) :
    c.drawn k = c.current.elim [] (·.samples k) := by
  rw [drawn]
  cases c.current <;> rfl

theorem Traced.collecting (h : c.Traced d) : c.collecting = d.collecting := by
  rw [Coordinator.collecting, Coordinator.collecting, h.config.2, h.desynced]

theorem Traced.drawn (h : c.Traced d) (k : Category) : c.drawn k = d.drawn k := by
  rw [drawn_eq, drawn_eq]
  exact h.current k

theorem Traced.of_drawn {o p : Option Opinion} {x y : Pool} (h : c.Traced d)
    (hdrawn : ∀ k, { c with current := o, pool := x }.drawn k =
      { d with current := p, pool := y }.drawn k) :
    { c with current := o, pool := x }.Traced { d with current := p, pool := y } := by
  refine h.withCurrent (fun k => ?_) x y
  have hk := hdrawn k
  rwa [drawn_eq, drawn_eq] at hk

/-- States and texts are recorded on both sides. -/
theorem Traced.records (h : c.Traced d) (hk : k.Records tick) :
    (c.perform k).value.2.Traced (d.perform k).value.2 := by
  obtain ⟨-, -, write, -, hc⟩ := perform_records hk c
  obtain ⟨-, -, write', -, hd⟩ := perform_records hk d
  cases hcol : c.collecting with
  | false =>
    have hcol' := h.collecting.symm.trans hcol
    rw [hc, hd, record, record, hcol, hcol']
    exact h
  | true =>
    have hcol' := h.collecting.symm.trans hcol
    have hdrawn : ∀ j, (c.perform k).value.2.drawn j = (d.perform k).value.2.drawn j := by
      intro j
      rw [(contents_perform hk hcol j).1, (contents_perform hk hcol' j).1, h.drawn]
    rw [hc, hd] at hdrawn ⊢
    obtain ⟨o, x, he⟩ := c.record_eq tick write
    obtain ⟨p, y, he'⟩ := d.record_eq tick write'
    rw [he, he'] at hdrawn ⊢
    exact h.of_drawn hdrawn

/-- A traced call adds no sample. -/
theorem Traced.addCall (h : c.Traced d) (tick : Tick) (e : CallEntry) (depth : UInt32)
    (site : TraceHash) : (c.addCall tick e depth site).Traced (d.addCall tick e depth site) := by
  have hquiet : d.addCall tick e depth site = d := by
    rw [Coordinator.addCall, h.config.2]
    rfl
  rw [hquiet, Coordinator.addCall, if_pos h.config.1]
  cases hcol : c.collecting with
  | false =>
    rw [record, hcol]
    exact h
  | true =>
    have hdrawn : ∀ j, (c.record tick
        (·.logEntry (.call ({ e with tick }.sealed depth site)))).drawn j = d.drawn j := by
      intro j
      obtain ⟨o, ho, hsamples, -⟩ := contents_record hcol tick
        (·.logEntry (.call ({ e with tick }.sealed depth site)))
      rw [Coordinator.drawn, ho, ← h.drawn, ← hsamples]
      exact o.samples_logEntry _ j
    obtain ⟨o, x, he⟩ := c.record_eq tick (·.logEntry (.call ({ e with tick }.sealed depth site)))
    rw [he] at hdrawn ⊢
    exact h.of_drawn hdrawn

/-- Both sides hand out the same samples for the same ticks, if the traced
opinion starts where the other one does. -/
theorem Traced.takeLocal (h : c.Traced d) (ht : Opened c t) (hu : Opened d u)
    (hnone : t = none → u = none)
    (hstart : ∀ o, (c.takeLocal stop).value.1 = some o → u = some o.start) :
    (c.takeLocal stop).Like (HandOuts .draws Traced) (d.takeLocal stop) := by
  have hidle : c.current = none → d.current = none →
      (c.takeLocal stop).Like (HandOuts .draws Traced) (d.takeLocal stop) := by
    intro hc hd
    rw [Coordinator.takeLocal, Coordinator.takeLocal, hc, hd]
    exact Logged.like_pure ⟨.none, h⟩
  cases ht with
  | idle t hcol hc =>
    refine hidle hc ?_
    cases hu with
    | idle _ _ hd => exact hd
    | none hd => exact hd
    | some hcol' hb => simp [← h.collecting, hcol] at hcol'
  | none hc =>
    refine hidle hc ?_
    rw [hnone rfl] at hu
    cases hu with
    | idle _ _ hd => exact hd
    | none hd => exact hd
  | @some start hcol hb =>
    obtain ⟨o, ho, horigin, hostart⟩ := hb
    have hdesynced := desynced_of_collecting hcol
    have hdesynced' := h.desynced.symm.trans hdesynced
    have hu' := hstart _ (congrArg Prod.fst (takeLocal_some ho hdesynced stop))
    rw [hu'] at hu
    cases hu with
    | idle _ hcol' _ => simp [← h.collecting, hcol] at hcol'
    | some hcol' hb' =>
      obtain ⟨p, hp, horigin', hpstart⟩ := hb'
      have hdraws : (o.finish stop).SameDraws (p.finish stop) := by
        refine ⟨horigin.trans horigin'.symm, ?_, fun k => ?_⟩
        · exact congrArg (TickRange.mk · (some stop)) hpstart.symm
        · rw [Opinion.samples_finish, Opinion.samples_finish]
          simpa [ho, hp] using h.current k
      simp only [Coordinator.takeLocal, ho, hp, hdesynced, hdesynced']
      exact Logged.like_pure ⟨.some hdraws, h.withCurrent (fun _ => rfl) c.pool d.pool⟩

/-- Calls are answered alike on both sides, hand-outs left aside. -/
theorem Traced.perform (h : c.Traced d) (hk : k.Like .draws l)
    (htake : ∀ {stop}, k = .takeLocal stop →
      (c.takeLocal stop).Like (HandOuts .draws Traced) (d.takeLocal stop)) :
    (c.perform k).Like (Answers .draws Traced) (d.perform l) := by
  by_cases hwrites : k.Writes
  · cases hk with
    | submit hab => exact absurd hwrites id
    | same k =>
      cases k with
      | addState tick k s => exact ⟨⟨.done, h.records (.state k s)⟩, rfl⟩
      | addInfo tick subject detail => exact ⟨⟨.done, h.records (.info subject detail)⟩, rfl⟩
      | addCall tick e depth site => exact ⟨⟨.done, h.addCall tick e depth site⟩, rfl⟩
      | takeLocal stop =>
        exact (htake rfl).bind fun hxy => Logged.like_pure ⟨.taken hxy.1, hxy.2⟩
      | _ => exact absurd hwrites id
  · exact h.perform_aside (fun _ => rfl) hk hwrites

end Lockstep.Coordinator
