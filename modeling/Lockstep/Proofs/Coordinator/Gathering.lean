import Lockstep.Proofs.Coordinator.Pooling
import Lockstep.Proofs.Coordinator.Survival
import Lockstep.Proofs.Coordinator.Tracing
import Lockstep.Proofs.Trace.Entry

/-! What goes into a local opinion: all that has been recorded since the last
hand-out, in order, and nothing of what its object held before. -/
namespace Lockstep

theorem Opinion.contents_of_isEmpty {o : Opinion} (h : o.isEmpty = true) :
    (∀ k, o.samples k = []) ∧ o.entries = [] := by
  simp only [Opinion.isEmpty, Bool.and_eq_true, List.isEmpty_iff] at h
  obtain ⟨⟨⟨⟨hcommand, hworld⟩, hmaps⟩, hentries⟩, -⟩ := h
  refine ⟨fun k => ?_, hentries⟩
  cases k with
  | command => exact hcommand
  | world => exact hworld
  | map id =>
    rw [SampleMap.isEmpty_eq, List.isEmpty_iff] at hmaps
    by_contra hid
    have hmem := SampleMap.mem_ids.2 hid
    simp [hmaps] at hmem

namespace Coordinator

variable {c d : Coordinator} {k : Call} {ks pre : List Call} {o p : Opinion} {tick : Tick}
  {traces : Bool} {write : Opinion → Opinion} {config : Config} {category : Category}

/-- The tick that a call records something for. With `traces`, traced calls are
recorded as well. -/
def Call.recordsFor? (traces : Bool) : Call → Option Tick
  | .addState tick _ _ | .addInfo tick _ _ => some tick
  | .addCall tick _ _ _ => if traces then some tick else none
  | _ => none

def Call.entry? (traces : Bool) : Call → Option TraceEntry
  | .addInfo tick subject detail => some (.info ⟨tick, subject, detail⟩)
  | .addCall tick e depth site =>
    if traces then some (.call ({ e with tick }.sealed depth site)) else none
  | _ => none

def Call.Takes : Call → Prop
  | .takeLocal _ => True
  | _ => False

instance (k : Call) : Decidable k.Takes := by
  cases k <;> unfold Call.Takes <;> infer_instance

/-- Whether a catch-up is in progress after a call, as it was `on` before. -/
def Call.hurries (on : Bool) : Call → Bool
  | .startCatchUp _ => true
  | .finishCatchUp => false
  | _ => on

def hurrying (ks : List Call) : Bool := ks.foldl Call.hurries false

/-- One of the calls `ks`, which follow on `pre`, records something during a catch-up. -/
def Hurried (traces : Bool) (pre ks : List Call) : Prop :=
  ∃ before k later, ks = before ++ k :: later ∧ (k.recordsFor? traces).isSome = true ∧
    hurrying (pre ++ before) = true

/-- An opinion has the samples, the traces and the mark that the calls `ks`,
which follow on `pre`, give to it. -/
structure Gathered (traces : Bool) (pre ks : List Call) (o : Opinion) : Prop where
  samples : ∀ category, o.samples category = ks.filterMap (Call.sample? category)
  entries : o.entries = ks.filterMap (Call.entry? traces)
  hashes : o.hashes = (ks.filterMap (Call.entry? traces)).map TraceEntry.hash
  simulating : o.simulating = true ↔ Hurried traces pre ks

/-- An opinion over the ticks from the first of the recordings in `ks` to `stop`,
with all that these recordings give to it. -/
structure Collected (traces : Bool) (pre ks : List Call) (stop : Tick) (o : Opinion) : Prop
    extends Gathered traces pre ks o where
  origin : o.origin = .local
  start : ks.findSome? (Call.recordsFor? traces) = some o.start
  stop : o.stop = some stop
  nonempty : o.isEmpty = false

/-- Every entry of an opinion comes from one of the calls `ks`, and carries its tick. A traced call
is sealed with the depth and the call site that it came with. -/
structure Sourced (traces : Bool) (ks : List Call) (o : Opinion) : Prop where
  tick : ∀ x ∈ o.entries, ∃ k ∈ ks, k.recordsFor? traces = some x.tick
  call : ∀ e, .call e ∈ o.entries → ∃ tick raw depth site,
    .addCall tick raw depth site ∈ ks ∧ raw.SealedAs tick depth site e

/-- A write adds what a call records, and nothing else. -/
structure Call.Adds (traces : Bool) (k : Call) (write : Opinion → Opinion) : Prop where
  samples : ∀ o category, (write o).samples category = o.samples category ++
    (k.sample? category).toList
  entries : ∀ o, (write o).entries = o.entries ++ (k.entry? traces).toList
  hashes : ∀ o, (write o).hashes = o.hashes ++ ((k.entry? traces).map TraceEntry.hash).toList
  simulating : ∀ o, (write o).simulating = o.simulating

theorem tick_of_entry? {x : TraceEntry} (hx : k.entry? traces = some x) :
    k.recordsFor? traces = some x.tick := by
  cases k with
  | addInfo tick subject detail =>
    cases hx
    rfl
  | addCall tick e depth site =>
    cases traces with
    | true =>
      cases hx
      rfl
    | false => cases hx
  | _ => cases hx

theorem sealed_of_entry? {e : CallEntry} (he : k.entry? traces = some (.call e)) :
    ∃ tick raw depth site, k = .addCall tick raw depth site ∧ raw.SealedAs tick depth site e := by
  cases k with
  | addInfo tick subject detail => cases he
  | addCall tick raw depth site =>
    cases traces with
    | true =>
      cases he
      exact ⟨tick, raw, depth, site, rfl, raw.sealedAs_sealed tick depth site⟩
    | false => cases he
  | _ => cases he

theorem Gathered.sourced (h : Gathered traces pre ks o) : Sourced traces ks o := by
  have hsource : ∀ x ∈ o.entries, ∃ k ∈ ks, k.entry? traces = some x := by
    intro x hx
    rw [h.entries] at hx
    exact List.mem_filterMap.1 hx
  constructor
  · intro x hx
    obtain ⟨k, hk, hentry⟩ := hsource x hx
    exact ⟨k, hk, tick_of_entry? hentry⟩
  · intro e he
    obtain ⟨k, hk, hentry⟩ := hsource _ he
    obtain ⟨tick, raw, depth, site, rfl, hsealed⟩ := sealed_of_entry? hentry
    exact ⟨tick, raw, depth, site, hk, hsealed⟩

theorem leaves_of_recordsFor? (hk : k.recordsFor? traces = some tick) :
    (∃ category x, k.sample? category = some x) ∨ ∃ x, k.entry? traces = some x := by
  cases k with
  | addState tick category s => exact .inl ⟨category, Sample.ofState s, if_pos rfl⟩
  | addInfo tick subject detail => exact .inr ⟨_, rfl⟩
  | addCall tick e depth site =>
    cases traces with
    | true => exact .inr ⟨_, rfl⟩
    | false => cases hk
  | _ => cases hk

theorem leaves_nothing (hk : k.recordsFor? traces = none) :
    (∀ category, k.sample? category = none) ∧ k.entry? traces = none := by
  cases k with
  | addState tick category s => cases hk
  | addInfo tick subject detail => cases hk
  | addCall tick e depth site =>
    cases traces with
    | true => cases hk
    | false => exact ⟨fun _ => rfl, rfl⟩
  | _ => exact ⟨fun _ => rfl, rfl⟩

theorem perform_recordsFor? (hk : k.recordsFor? c.config.logTraces = some tick) :
    ∃ write, k.Adds c.config.logTraces write ∧
      (c.perform k).value.2 = c.record tick write := by
  have hentry : ∀ {e : TraceEntry}, k.entry? c.config.logTraces = some e →
      (∀ category, k.sample? category = none) →
      k.Adds c.config.logTraces (·.logEntry e) := by
    intro e he hsample
    refine ⟨fun o category => ?_, fun o => ?_, fun o => ?_, fun o => rfl⟩
    · rw [Opinion.samples_logEntry, hsample]
      exact (List.append_nil _).symm
    · rw [he]
      rfl
    · rw [he]
      rfl
  cases k with
  | addState t category s =>
    cases hk
    refine ⟨(·.recordState category s), ⟨fun o j => ?_, fun o => ?_, fun o => ?_, fun o => ?_⟩, rfl⟩
    · rw [Opinion.recordState, Opinion.samples_record, Call.sample?]
      split <;> simp
    · exact (o.entries_record category _).trans (List.append_nil _).symm
    · exact (o.hashes_record category _).trans (List.append_nil _).symm
    · exact o.simulating_record category _
  | addInfo t subject detail =>
    cases hk
    exact ⟨_, hentry rfl fun _ => rfl, rfl⟩
  | addCall t e depth site =>
    simp only [Call.recordsFor?] at hk
    split at hk
    next htraces =>
      cases hk
      refine ⟨_, hentry (if_pos htraces) fun _ => rfl, if_pos htraces⟩
    next => cases hk
  | _ => cases hk

theorem ne_desynced_of_running (hd : (c.submit o).value.2.desynced = false) :
    (c.submit o).value.1 ≠ .desynced := by
  intro hr
  simp [(halted_submit hr).desynced] at hd

/-- Only recordings and hand-outs change the opinion in the making. -/
theorem current_perform (hk : k.recordsFor? c.config.logTraces = none) (htakes : ¬ k.Takes)
    (hd : (c.perform k).value.2.desynced = false) :
    (c.perform k).value.2.current = c.current := by
  cases k with
  | addState tick category s => cases hk
  | addInfo tick subject detail => cases hk
  | addCall tick e depth site =>
    have htraces : c.config.logTraces = false := by simpa [Call.recordsFor?] using hk
    simp [perform, addCall, htraces]
  | takeLocal stop => exact absurd trivial htakes
  | submit o =>
    obtain ⟨-, -, hcurrent, -⟩ := rest_submission (c.submission o)
    exact hcurrent.trans (if_neg (ne_desynced_of_running hd))
  | processPending => exact current_processPending c
  | startCatchUp target =>
    simp only [perform, startCatchUp, Logged.value_pure]
    split <;> rfl
  | finishCatchUp => rfl
  | setArbiterPlaying playing => rfl

theorem catchingUp_record (c : Coordinator) (tick : Tick) (write : Opinion → Opinion) :
    (c.record tick write).catchingUp = c.catchingUp := by
  obtain ⟨current, pool, h⟩ := c.record_eq tick write
  rw [h]
  rfl

/-- Catching up begins and ends with the calls that say so, short of a desync. -/
theorem catchingUp_perform (hd : (c.perform k).value.2.desynced = false) :
    (c.perform k).value.2.catchingUp = k.hurries c.catchingUp := by
  cases k with
  | addState tick category s => exact c.catchingUp_record tick _
  | addInfo tick subject detail => exact c.catchingUp_record tick _
  | addCall tick e depth site =>
    simp only [perform, addCall, Logged.value_pure]
    split
    · exact c.catchingUp_record tick _
    · rfl
  | startCatchUp target =>
    have hrunning : c.desynced = false := desynced_perform hd
    change (c.startCatchUp target).catchingUp = true
    rw [startCatchUp, hrunning]
    rfl
  | finishCatchUp => rfl
  | setArbiterPlaying playing => rfl
  | takeLocal stop =>
    obtain ⟨current, pool, h⟩ := c.takeLocal_eq stop
    change (c.takeLocal stop).value.2.catchingUp = c.catchingUp
    rw [h]
    rfl
  | submit o =>
    obtain ⟨-, -, -, hcatch, -⟩ := rest_submission (c.submission o)
    exact congrArg Option.isSome (hcatch.trans (if_neg (ne_desynced_of_running hd)))
  | processPending =>
    rw [perform_processPending, processPending]
    split <;> rfl

theorem catchingUp_run (hd : ((new config).after ks).desynced = false) :
    ((new config).after ks).catchingUp = hurrying ks := by
  induction ks using List.reverseRecOn with
  | nil => rfl
  | append_singleton ks k ih =>
    have hstep := ih (desynced_of_append hd)
    rw [after_append] at hd ⊢
    rw [hurrying, List.foldl_concat, ← hurrying, ← hstep]
    exact catchingUp_perform hd

theorem making_record (hcol : c.collecting = true) (tick t : Tick) (write : Opinion → Opinion) :
    ∃ o : Opinion, o.Alike (c.making tick) ∧ (c.record tick write).making t =
      write (if c.catchingUp then o.markSimulating else o) := by
  refine ⟨(c.openCurrent tick).1, c.alike_openCurrent tick, ?_⟩
  rw [record, if_pos hcol]
  rfl

theorem hurried_concat : Hurried traces pre (ks ++ [k]) ↔ Hurried traces pre ks ∨
    ((k.recordsFor? traces).isSome = true ∧ hurrying (pre ++ ks) = true) := by
  constructor
  · rintro ⟨before, j, later, hsplit, hj, hon⟩
    -- The recording is the last call, or one of those before it.
    obtain rfl | ⟨later, l, rfl⟩ := List.eq_nil_or_concat later
    · obtain ⟨rfl, hjk⟩ := List.append_inj' hsplit rfl
      cases hjk
      exact .inr ⟨hj, hon⟩
    · rw [List.concat_eq_append, ← List.cons_append, ← List.append_assoc] at hsplit
      exact .inl ⟨before, j, later, (List.append_inj' hsplit rfl).1, hj, hon⟩
  · rintro (⟨before, j, later, rfl, hj, hon⟩ | ⟨hk, hon⟩)
    · exact ⟨before, j, later ++ [k], by simp, hj, hon⟩
    · exact ⟨ks, k, [], rfl, hk, hon⟩

theorem gathered_fresh (traces : Bool) (pre : List Call) (tick : Tick) :
    Gathered traces pre [] { origin := .local, start := tick } where
  samples category := by cases category <;> rfl
  entries := rfl
  hashes := rfl
  simulating := by
    constructor
    · intro h
      cases h
    · rintro ⟨before, k, later, hsplit, -, -⟩
      simp at hsplit

theorem Gathered.of_alike (h : Gathered traces pre ks o) (ha : p.Alike o) :
    Gathered traces pre ks p where
  samples category := (ha.samples category).trans (h.samples category)
  entries := ha.entries.trans h.entries
  hashes := ha.hashes.trans h.hashes
  simulating := by rw [ha.simulating, h.simulating]

theorem Gathered.skip (h : Gathered traces pre ks o) (hk : k.recordsFor? traces = none) :
    Gathered traces pre (ks ++ [k]) o := by
  obtain ⟨hsample, hentry⟩ := leaves_nothing hk
  refine ⟨fun category => ?_, ?_, ?_, ?_⟩
  · simp [h.samples, hsample]
  · simp [h.entries, hentry]
  · simp [h.hashes, hentry]
  · rw [h.simulating, hurried_concat, hk]
    simp

theorem Gathered.add (h : Gathered traces pre ks o)
    (hk : (k.recordsFor? traces).isSome = true) (hw : k.Adds traces write) :
    Gathered traces pre (ks ++ [k])
      (write (if hurrying (pre ++ ks) then o.markSimulating else o)) := by
  have hmark : ∀ on : Bool, (if on then o.markSimulating else o).entries = o.entries ∧
      (if on then o.markSimulating else o).hashes = o.hashes ∧
      (if on then o.markSimulating else o).simulating = (o.simulating || on) := by
    intro on
    cases on with
    | true => exact ⟨rfl, rfl, (Bool.or_true _).symm⟩
    | false => exact ⟨rfl, rfl, (Bool.or_false _).symm⟩
  obtain ⟨hentries, hhashes, hsimulating⟩ := hmark (hurrying (pre ++ ks))
  refine ⟨fun category => ?_, ?_, ?_, ?_⟩
  · rw [hw.samples, (Opinion.SameDraws.marked o _).samples, h.samples]
    cases hs : k.sample? category <;> simp [hs]
  · rw [hw.entries, hentries, h.entries]
    cases he : k.entry? traces <;> simp [he]
  · rw [hw.hashes, hhashes, h.hashes]
    cases he : k.entry? traces <;> simp [he]
  · rw [hw.simulating, hsimulating, hurried_concat, Bool.or_eq_true, h.simulating]
    simp [hk]

/-- Between two hand-outs, the opinion in the making is made of what the calls
record, in their order. -/
theorem gathered_run (hreplay : config.replay = false)
    (hpre : ((new config).after pre).current = none) (hks : ∀ k ∈ ks, ¬ k.Takes)
    (hd : ((new config).after (pre ++ ks)).desynced = false) (tick : Tick) :
    Gathered config.logTraces pre ks (((new config).after (pre ++ ks)).making tick) := by
  induction ks using List.reverseRecOn generalizing tick with
  | nil =>
    rw [List.append_nil, making, hpre]
    exact gathered_fresh _ pre tick
  | append_singleton ks k ih =>
    -- The last call writes to the state that the calls before it have led to,
    -- and marks the opinion if these have left a catch-up in progress.
    obtain ⟨hks, hk⟩ := List.forall_mem_append.1 hks
    rw [← List.append_assoc] at hd ⊢
    have hd' := desynced_of_append hd
    have hgathered := ih hks hd'
    have hconfig := config_run config (pre ++ ks)
    have hcatch := catchingUp_run hd'
    rw [after_append, after_cons, after_nil] at hd ⊢
    generalize (new config).after (pre ++ ks) = c at *
    have htraces : c.config.logTraces = config.logTraces := congrArg Config.logTraces hconfig
    cases hrecords : k.recordsFor? config.logTraces with
    | none =>
      have hcurrent := current_perform (by rw [htraces, hrecords]) (hk k List.mem_cons_self) hd
      rw [making, hcurrent]
      exact (hgathered tick).skip hrecords
    | some t =>
      obtain ⟨write, hw, hc⟩ := perform_recordsFor? (c := c) (by rw [htraces, hrecords])
      have hcol : c.collecting = true := by
        rw [collecting_eq (by rw [hconfig, hreplay]), hd']
        rfl
      obtain ⟨o, ho, hmaking⟩ := c.making_record hcol t tick write
      rw [hc, hmaking, hcatch]
      rw [htraces] at hw
      exact ((hgathered t).of_alike ho).add (by rw [hrecords]; rfl) hw

/-- Short of a hand-out, an opinion is opened by the first call that records. -/
theorem opening_eq (hk : ¬ k.Takes) (t : Option Tick) :
    k.opening traces t = t.or (k.recordsFor? traces) := by
  cases k with
  | addCall tick e depth site => cases traces <;> simp [Call.opening, Call.recordsFor?]
  | takeLocal stop => exact absurd trivial hk
  | addState tick category s => rfl
  | addInfo tick subject detail => rfl
  | _ => exact (Option.or_none).symm

theorem opened_since (hpre : ((new config).after pre).current = none) (hks : ∀ k ∈ ks, ¬ k.Takes) :
    ((new config).after (pre ++ ks)).Opened
      (ks.findSome? (Call.recordsFor? config.logTraces)) := by
  induction ks using List.reverseRecOn with
  | nil =>
    rw [List.append_nil]
    exact .none hpre
  | append_singleton ks k ih =>
    obtain ⟨hks, hk⟩ := List.forall_mem_append.1 hks
    have hopened := opened_perform (ih hks) k
    rw [config_run, opening_eq (hk k List.mem_cons_self)] at hopened
    rw [← List.append_assoc, after_append, List.findSome?_append, List.findSome?_singleton]
    exact hopened

theorem current_of_takes (config : Config) (hpre : ∀ k ∈ pre.getLast?, k.Takes) :
    ((new config).after pre).current = none := by
  obtain rfl | ⟨pre, k, rfl⟩ := List.eq_nil_or_concat pre
  · rfl
  · rw [List.concat_eq_append, after_append, after_cons, after_nil]
    have hk : k.Takes := hpre k (by simp)
    cases k with
    | takeLocal stop => exact current_takeLocal _ stop
    | _ => exact absurd hk id

theorem Gathered.finish (h : Gathered traces pre ks o) (stop : Tick) :
    Gathered traces pre ks (o.finish stop) :=
  ⟨fun category => (o.samples_finish stop category).trans (h.samples category), h.entries,
    h.hashes, h.simulating⟩

theorem Gathered.nonempty (h : Gathered traces pre ks o)
    (hks : ks.findSome? (Call.recordsFor? traces) = some tick) : o.isEmpty = false := by
  by_contra hempty
  obtain ⟨hsamples, hentries⟩ := Opinion.contents_of_isEmpty (Bool.not_eq_false _ ▸ hempty)
  obtain ⟨k, hk, hrecords⟩ := List.exists_of_findSome?_eq_some hks
  obtain ⟨category, x, hx⟩ | ⟨x, hx⟩ := leaves_of_recordsFor? hrecords
  · have hmem : x ∈ o.samples category := by
      rw [h.samples]
      exact List.mem_filterMap.2 ⟨k, hk, hx⟩
    simp [hsamples] at hmem
  · have hmem : x ∈ o.entries := by
      rw [h.entries]
      exact List.mem_filterMap.2 ⟨k, hk, hx⟩
    simp [hentries] at hmem

/-- A hand-out gives what has been recorded since the one before, or nothing if
nothing has been recorded. -/
theorem takeLocal_run (hreplay : config.replay = false) (hpre : ∀ k ∈ pre.getLast?, k.Takes)
    (hks : ∀ k ∈ ks, ¬ k.Takes) (hd : ((new config).after (pre ++ ks)).desynced = false)
    (stop : Tick) :
    ((((new config).after (pre ++ ks)).takeLocal stop).value.1 = none ↔
        ∀ k ∈ ks, k.recordsFor? config.logTraces = none) ∧
      ∀ o, (((new config).after (pre ++ ks)).takeLocal stop).value.1 = some o →
        Collected config.logTraces pre ks stop o := by
  have hnone := current_of_takes config hpre
  have hopened := opened_since hnone hks
  have hgathered := gathered_run hreplay hnone hks hd
  have hconfig := config_run config (pre ++ ks)
  generalize (new config).after (pre ++ ks) = c at *
  have hcol : c.collecting = true := by
    rw [collecting_eq (by rw [hconfig, hreplay]), hd]
    rfl
  rw [← List.findSome?_eq_none_iff]
  generalize hfirst : ks.findSome? (Call.recordsFor? config.logTraces) = first at hopened
  cases hopened with
  | idle _ hidle _ => simp [hcol] at hidle
  | none hc => simp [takeLocal_none hc]
  | @some start _ hb =>
    obtain ⟨o, ho, horigin, hstart⟩ := hb
    have htaken := congrArg Prod.fst (takeLocal_some ho hd stop)
    refine ⟨by simp [htaken], fun p hp => ?_⟩
    cases htaken.symm.trans hp
    have hmaking : c.making start = o := by rw [making, ho]; rfl
    have hcollected := (hmaking ▸ hgathered start).finish stop
    exact ⟨hcollected, horigin, hfirst.trans (congrArg some hstart.symm), rfl,
      hcollected.nonempty hfirst⟩

end Coordinator

end Lockstep
