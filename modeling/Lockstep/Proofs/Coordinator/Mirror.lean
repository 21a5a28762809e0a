import Lockstep.Opinion.Wire
import Lockstep.Proofs.Coordinator.Clash

/-! Two coordinators of which each receives what the other has submitted for
its own side. -/
namespace Lockstep

/-- What is local on either side is remote on the other. -/
structure Mirrored (h g : List Opinion) : Prop where
  forth : ofSide .remote g = (ofSide .local h).map Opinion.wire
  back : ofSide .remote h = (ofSide .local g).map Opinion.wire

variable {h g : List Opinion} {a b : Opinion} {t : Tick}

namespace Mirrored

theorem symm (hm : Mirrored h g) : Mirrored g h := ⟨hm.back, hm.forth⟩

theorem exists_wire (hm : Mirrored h g) (hb : b ∈ ofSide .remote h) :
    ∃ a ∈ ofSide .local g, a.wire = b := by
  rwa [hm.back, List.mem_map] at hb

theorem wire_mem (hm : Mirrored h g) (ha : a ∈ ofSide .local h) :
    a.wire ∈ ofSide .remote g := by
  rw [hm.forth]
  exact List.mem_map_of_mem ha

theorem common (hm : Mirrored h g) (hc : Common h t) : Common g t := by
  obtain ⟨a, ha, b, hb, hat, hbt⟩ := hc
  obtain ⟨b', hb', rfl⟩ := hm.exists_wire hb
  exact ⟨b', hb', a.wire, hm.wire_mem ha, hbt, hat⟩

theorem clash (hm : Mirrored h g) (hc : Clash h t) : Clash g t := by
  obtain ⟨a, ha, b, hb, hat, hbt, hdis⟩ := hc
  obtain ⟨b', hb', rfl⟩ := hm.exists_wire hb
  refine ⟨b', hb', a.wire, hm.wire_mem ha, hbt, hat, fun he => hdis ?_⟩
  rw [Opinion.disagreement?_wire_right] at he ⊢
  exact Opinion.disagreement?_eq_none_comm.1 he

theorem firstClash (hm : Mirrored h g) (hc : FirstClash h t) : FirstClash g t :=
  ⟨hm.clash hc.1, fun s hs => hc.2 s (hm.symm.clash hs)⟩

end Mirrored

/-- Two reports tell of the same conflict, each from its own side. -/
structure Report.Matches (r r' : Report) : Prop where
  remote_eq : r.remoteOpinion = r'.localOpinion.wire
  remote_eq' : r'.remoteOpinion = r.localOpinion.wire
  start_eq : r'.localOpinion.start = r.localOpinion.start
  conflict : r.localOpinion.disagreement? r.remoteOpinion = some r.cause ∨
    r.localOpinion.disagreement? r.remoteOpinion = some r.cause.swap
  cause : r'.cause = r.cause ∨ r'.cause = r.cause.swap
  diffAt : r'.diffAt = r.diffAt
  lastValid : r'.lastValid = r.lastValid

variable {r r' : Report} {c d : Opinion}

/-- The cause is what one of the two opinions has against the other. -/
theorem Report.About.cause_or_swap (hr : r.About a b) :
    r.localOpinion.disagreement? r.remoteOpinion = some r.cause ∨
      r.localOpinion.disagreement? r.remoteOpinion = some r.cause.swap := by
  cases ho : a.origin with
  | «local» => exact Or.inl (hr.cause_iff_local_first.2 ho)
  | remote => exact Or.inr (hr.cause_of_remote_first ho)

theorem Report.matches_of_wire (hr : r.About a b) (hr' : r'.About c d)
    (he : r.remoteOpinion = r'.localOpinion.wire) (he' : r'.remoteOpinion = r.localOpinion.wire)
    (hs : r'.localOpinion.start = r.localOpinion.start) (hl : r'.lastValid = r.lastValid) :
    r.Matches r' := by
  have hflip : r'.localOpinion.disagreement? r'.remoteOpinion =
      (r.localOpinion.disagreement? r.remoteOpinion).map Disagreement.swap := by
    rw [he, he', Opinion.disagreement?_wire_right, Opinion.disagreement?_wire_right]
    exact Opinion.disagreement?_swap _ _
  refine ⟨he, he', hs, hr.cause_or_swap, ?_, ?_, hl⟩
  · rcases hr.cause_or_swap with hc | hc <;> rcases hr'.cause_or_swap with hc' | hc' <;>
      rw [hc, hc', Option.map_some, Option.some_inj] at hflip
    · exact Or.inr hflip
    · exact Or.inl (by simpa using congrArg Disagreement.swap hflip)
    · exact Or.inl (by simpa using hflip)
    · exact Or.inr (by simpa using congrArg Disagreement.swap hflip)
  · rw [hr.diffAt, hr'.diffAt, he, he', Opinion.traceDiff?_wire_right,
      Opinion.traceDiff?_wire_right]
    exact Opinion.traceDiff?_comm _ _

namespace Coordinator

variable {config config' : Config} {ks ls : List Call}

/-- Both sides compare opinions for the same ticks. -/
theorem mirrored_starts (hr : Roomy config.window (submitted ks))
    (hr' : Roomy config'.window (submitted ls))
    (hm : Mirrored (submitted ks) (submitted ls)) :
    ((new config).comparisons ks).map (·.earlier.start) =
      ((new config').comparisons ls).map (·.earlier.start) := by
  have hp := List.pairwise_map.2 (pairwise_comparisons config hr.streams)
  have hp' := List.pairwise_map.2 (pairwise_comparisons config' hr'.streams)
  apply List.Pairwise.eq_of_mem_iff hp hp'
  intro t
  rw [mem_starts_iff hr, mem_starts_iff hr']
  constructor
  · rintro ⟨hc, hle⟩
    exact ⟨hm.common hc, fun s hs => hle s (hm.symm.firstClash hs)⟩
  · rintro ⟨hc, hle⟩
    exact ⟨hm.symm.common hc, fun s hs => hle s (hm.firstClash hs)⟩

/-- A run that has ended and has been reported: its last comparison is the only
one that disagrees, and its one report is about it. -/
structure Closed (config : Config) (ks : List Call) (k : Conflict) (ns : List Comparison)
    (r : Report) : Prop where
  comparisons : (new config).comparisons ks = ns ++ [⟨k.first, k.second⟩]
  desynced : ((new config).after ks).desynced = true
  reports : (new config).reports ks = [r]
  about : r.About k.first k.second
  lastValid : r.lastValid = ns.getLast?.map (·.earlier.start)

/-- With nothing left to report, a run is still open or has been closed. -/
theorem open_or_closed (hp : ((new config).after ks).hasPending = false) :
    (((new config).after ks).desynced = false ∧ (new config).reports ks = []) ∨
      ∃ k ns r, Closed config ks k ns r := by
  cases judged_run config ks with
  | running hphase _ _ hrs => exact Or.inl ⟨desynced_eq_false.2 hphase, hrs⟩
  | @ended k ns hms _ hc hl hphase =>
    rcases hphase with ⟨hphase, -⟩ | ⟨hphase, hrs⟩
    · simp [hasPending, hphase] at hp
    · have hmem : ⟨k.first, k.second⟩ ∈ (new config).comparisons ks := by simp [hms]
      have hpaired := paired_run hmem
      refine Or.inr ⟨k, ns, _, hms, ?_, hrs, Report.about_report hpaired.origin_ne hc _ _, hl⟩
      simp [desynced, hphase]

theorem Closed.opinions {k : Conflict} {ns : List Comparison} {r : Report}
    (hk : Closed config ks k ns r) :
    r.localOpinion ∈ ofSide .local (submitted ks) ∧
      r.remoteOpinion ∈ ofSide .remote (submitted ks) ∧
      r.localOpinion.start = k.first.start ∧ r.remoteOpinion.start = k.first.start := by
  have hmem : ⟨k.first, k.second⟩ ∈ (new config).comparisons ks := by simp [hk.comparisons]
  obtain ⟨he, hl, -, hst⟩ := paired_run hmem
  obtain ⟨hx, hy, ⟨hfirst, hsecond⟩ | ⟨hfirst, hsecond⟩, -, -⟩ := hk.about
  · rw [← hfirst] at hx ⊢
    rw [← hsecond] at hy ⊢
    exact ⟨mem_ofSide.2 ⟨he, hx⟩, mem_ofSide.2 ⟨hl, hy⟩, rfl, hst.symm⟩
  · rw [← hfirst] at hy ⊢
    rw [← hsecond] at hx ⊢
    exact ⟨mem_ofSide.2 ⟨hl, hx⟩, mem_ofSide.2 ⟨he, hy⟩, hst.symm, rfl⟩

theorem Closed.firstClash {k : Conflict} {ns : List Comparison} {r : Report}
    (hr : Roomy config.window (submitted ks)) (hk : Closed config ks k ns r) :
    FirstClash (submitted ks) k.first.start := by
  refine (firstClash_iff hr).2 ⟨⟨k.first, k.second⟩, by simp [hk.comparisons], ?_, rfl⟩
  simp [Comparison.Agrees, hk.about.cause]

theorem desynced_of_firstClash (hr : Roomy config.window (submitted ks))
    (hc : FirstClash (submitted ks) t) : ((new config).after ks).desynced = true := by
  obtain ⟨m, hm, hdis, -⟩ := (firstClash_iff hr).1 hc
  rw [← Bool.not_eq_false, desynced_run_eq_false]
  exact fun hall => hdis (hall m hm)

/-- The two sides report on the same opinions, those of the first clash. -/
theorem Closed.matches {k k' : Conflict} {ns ns' : List Comparison} {r r' : Report}
    (hr : Roomy config.window (submitted ks))
    (hr' : Roomy config'.window (submitted ls))
    (hm : Mirrored (submitted ks) (submitted ls)) (hk : Closed config ks k ns r)
    (hk' : Closed config' ls k' ns' r') : r.Matches r' := by
  have hfirst : k'.first.start = k.first.start :=
    firstClash_unique (hm.symm.firstClash (hk'.firstClash hr')) (hk.firstClash hr)
  obtain ⟨hloc, hrem, hls, hrs⟩ := hk.opinions
  obtain ⟨hloc', hrem', hls', hrs'⟩ := hk'.opinions
  have hlocal : r'.localOpinion.start = r.localOpinion.start :=
    hls'.trans (hfirst.trans hls.symm)
  -- a start tells which opinion of a stream has been reported
  have hb : r.remoteOpinion = r'.localOpinion.wire :=
    eq_of_mem_ofSide hr.streams hrem (hm.symm.wire_mem hloc')
      (hrs.trans (hfirst.symm.trans hls'.symm))
  have ha : r'.remoteOpinion = r.localOpinion.wire :=
    eq_of_mem_ofSide hr'.streams hrem' (hm.wire_mem hloc)
      (hrs'.trans (hfirst.trans hls.symm))
  refine Report.matches_of_wire hk.about hk'.about hb ha hlocal ?_
  have hstarts := mirrored_starts hr hr' hm
  rw [hk.comparisons, hk'.comparisons, List.map_append, List.map_append, List.map_singleton,
    List.map_singleton, hfirst] at hstarts
  rw [hk.lastValid, hk'.lastValid, ← List.getLast?_map, ← List.getLast?_map,
    List.append_cancel_right hstarts]

/-- The two sides come to the same verdict, and if it is a desync each reports
it once, about the same opinions. -/
theorem mirrored_verdicts (hr : Roomy config.window (submitted ks))
    (hr' : Roomy config'.window (submitted ls))
    (hm : Mirrored (submitted ks) (submitted ls))
    (hp : ((new config).after ks).hasPending = false)
    (hp' : ((new config').after ls).hasPending = false) :
    ((((new config).after ks).desynced = false ∧ (new config).reports ks = []) ∧
        ((new config').after ls).desynced = false ∧ (new config').reports ls = []) ∨
      ∃ r r' : Report, (((new config).after ks).desynced = true ∧ (new config).reports ks = [r]) ∧
        (((new config').after ls).desynced = true ∧ (new config').reports ls = [r']) ∧
        r.Matches r' ∧ FirstClash (submitted ks) r.localOpinion.start ∧
        r.localOpinion ∈ ofSide .local (submitted ks) ∧
        r'.localOpinion ∈ ofSide .local (submitted ls) := by
  rcases open_or_closed hp with ⟨hd, hrs⟩ | ⟨k, ns, r, hk⟩ <;>
    rcases open_or_closed hp' with ⟨hd', hrs'⟩ | ⟨k', ns', r', hk'⟩
  · exact Or.inl ⟨⟨hd, hrs⟩, hd', hrs'⟩
  · have hc := hm.symm.firstClash (hk'.firstClash hr')
    exact absurd (desynced_of_firstClash hr hc) (by simp [hd])
  · have hc := hm.firstClash (hk.firstClash hr)
    exact absurd (desynced_of_firstClash hr' hc) (by simp [hd'])
  · refine Or.inr ⟨r, r', ⟨hk.desynced, hk.reports⟩, ⟨hk'.desynced, hk'.reports⟩,
      Closed.matches hr hr' hm hk hk', ?_, hk.opinions.1, hk'.opinions.1⟩
    rw [hk.opinions.2.2.1]
    exact hk.firstClash hr

end Coordinator

end Lockstep
