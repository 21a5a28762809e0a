import Lockstep.Proofs.Coordinator.Awaiting
import Lockstep.Proofs.Coordinator.Reports
import Lockstep.Proofs.Opinion.Pairing

/-! Schedules of a local stream and of a remote one that may repeat a start: all come to
the same verdicts. -/
namespace Lockstep

/-- What a report tells, but for its cause and for what was confirmed before. -/
def Report.finding (r : Report) : Opinion × Opinion × Option Nat :=
  (r.localOpinion, r.remoteOpinion, r.diffAt)

def Comparison.pairing (m : Comparison) : Pairing :=
  if m.earlier.origin.isLocal then ⟨m.earlier, m.later⟩ else ⟨m.later, m.earlier⟩

/-- What a new opinion is paired with: the first remote opinion that starts
with a local one, or the local opinion that a first remote one starts with. -/
def partner? (h : List Opinion) (o : Opinion) : Option Opinion :=
  match o.origin with
  | .local => (ofSide .remote h).find? (·.start = o.start)
  | .remote =>
    if ∃ u ∈ ofSide .remote h, u.start = o.start then none
    else (ofSide .local h).find? (·.start = o.start)

variable {n : Nat} {x : Origin} {h : List Opinion} {o w : Opinion} {m : Comparison}

theorem origin_partner? (hw : partner? h o = some w) : w.origin ≠ o.origin := by
  cases ho : o.origin with
  | «local» =>
    simp only [partner?, ho] at hw
    simp [(mem_ofSide.1 (List.mem_of_find?_eq_some hw)).2]
  | remote =>
    simp only [partner?, ho, Option.ite_none_left_eq_some] at hw
    simp [(mem_ofSide.1 (List.mem_of_find?_eq_some hw.2)).2]

theorem firstPairings_concat (hr : Retransmitted n (h ++ [o])) :
    firstPairings (ofSide .local (h ++ [o])) (ofSide .remote (h ++ [o])) =
      firstPairings (ofSide .local h) (ofSide .remote h) ++
        ((partner? h o).map fun w => (Comparison.mk w o).pairing).toList := by
  cases ho : o.origin with
  | «local» =>
    have hside : (partner? h o).map (fun w => (Comparison.mk w o).pairing) =
        (partner? h o).map (Pairing.mk o) := by
      refine Option.map_congr fun w hw => ?_
      have hwo : w.origin = .remote :=
        Origin.eq_of_ne_of_ne (ho ▸ origin_partner? hw) (by decide)
      simp [Comparison.pairing, hwo, Origin.isLocal]
    rw [ofSide_concat_self ho, ofSide_concat_other (by simp [ho]), firstPairings_concat_local,
      hside]
    simp only [partner?, ho]
  | remote =>
    have hside : (partner? h o).map (fun w => (Comparison.mk w o).pairing) =
        (partner? h o).map (Pairing.mk · o) := by
      refine Option.map_congr fun w hw => ?_
      have hwo : w.origin = .local :=
        Origin.eq_of_ne_of_ne (ho ▸ origin_partner? hw) (by decide)
      simp [Comparison.pairing, hwo, Origin.isLocal]
    have hle : ∀ u ∈ ofSide .remote h, u.start ≤ o.start := by
      intro u hu
      obtain ⟨hu, hur⟩ := mem_ofSide.1 hu
      exact hr.le_new hu (hur.trans ho.symm)
    rw [ofSide_concat_self ho, ofSide_concat_other (by simp [ho]),
      firstPairings_concat_remote (retransmitted_left hr).local_lt hle, hside]
    simp only [partner?, ho]

theorem Comparison.Paired.pairing (hm : m.Paired h) :
    (m.pairing.Agrees ↔ m.Agrees) ∧ m.pairing.ours.start = m.earlier.start := by
  rcases Origin.local_remote_of_ne hm.origin_ne with ⟨hx, -⟩ | ⟨hx, -⟩
  · have he : m.pairing = ⟨m.earlier, m.later⟩ := by simp [Comparison.pairing, hx, Origin.isLocal]
    rw [he]
    exact ⟨Iff.rfl, rfl⟩
  · have he : m.pairing = ⟨m.later, m.earlier⟩ := by simp [Comparison.pairing, hx, Origin.isLocal]
    rw [he]
    exact ⟨Opinion.disagreement?_eq_none_comm, hm.start_eq.symm⟩

namespace Coordinator

variable {c c' : Coordinator} {met : Option Opinion} {r : Outcome} {config : Config}
  {ks : List Call} {ps : List Pairing}

theorem met_eq_partner? (hr : Retransmitted n (h ++ [o])) (ha : Awaiting x h c)
    (hd : c.desynced = false) (hs : Submission c o met r c') : met = partner? h o := by
  cases ho : o.origin with
  | «local» =>
    have hmet := met_eq_find? hr ha hd hs ?_
    · simpa only [partner?, ho, Origin.invert] using hmet
    · intro v hv hvo heq hover
      exact UInt32.lt_irrefl _ (heq ▸ (hover.le_new hr hvo).2 ho)
  | remote =>
    simp only [partner?, ho]
    split
    next hrep =>
      -- the local opinion that waits is of later start than all that has come
      obtain ⟨u, hu, huo⟩ := hrep
      obtain ⟨hu, hur⟩ := mem_ofSide.1 hu
      cases met with
      | none => rfl
      | some w =>
        obtain ⟨front, rest, old, later, -, hb, hne, hsplit, heq, -⟩ := met_submission hs
        have hx : x = .local := by
          cases x with
          | «local» => rfl
          | remote => exact absurd ((origin_of_front ha hb).trans ho.symm) hne
        have hlt := (ha.late w (by simp [hsplit]) u hu (by simp [hur, hx])).2 hx
        rw [huo, heq] at hlt
        exact absurd hlt (UInt32.lt_irrefl _)
    next hfirst =>
      have hmet := met_eq_find? hr ha hd hs ?_
      · rwa [ho] at hmet
      · rintro v hv hvo heq ⟨u, hu, hne, hle⟩
        have hur : u.origin = o.origin := Origin.eq_of_ne_of_ne hne (Ne.symm hvo)
        have huo : u.start = o.start := by
          by_contra hneq
          have hlt := UInt32.lt_of_le_of_ne (hr.le_new hu hur) hneq
          exact UInt32.not_lt.2 hle (heq ▸ hlt)
        exact hfirst ⟨u, mem_ofSide.2 ⟨hu, hur.trans ho⟩, huo⟩

theorem agrees_pairings : (∀ p ∈ ((new config).comparisons ks).map Comparison.pairing, p.Agrees) ↔
    ((new config).after ks).desynced = false := by
  rw [desynced_run_eq_false, List.forall_mem_map]
  exact forall₂_congr fun m hm => (paired_run hm).pairing.1

/-- Each local opinion is compared with the first remote one that starts with
it, up to the first clash. -/
theorem pairings_run (hr : Retransmitted config.maxBacklog (submitted ks)) :
    ((new config).comparisons ks).map Comparison.pairing =
      throughClash
        (firstPairings (ofSide .local (submitted ks)) (ofSide .remote (submitted ks))) := by
  induction ks using List.reverseRecOn with
  | nil => rfl
  | append_singleton ks k ih =>
    rw [submitted_append] at hr
    have ih := ih (retransmitted_left hr)
    rw [comparisons_append, submitted_append, List.map_append, comparisons, comparisons,
      List.append_nil]
    cases ho : k.opinion? with
    | none =>
      have hno : ((new config).after ks).comparison? k = none := by
        cases k <;> first | rfl | cases ho
      simpa [hno, submitted_cons, ho] using ih
    | some o =>
      obtain rfl : k = .submit o := by
        cases k <;> first | exact congrArg Call.submit (Option.some.inj ho) | cases ho
      rw [submitted_cons, submitted_nil, ho, Option.toList_some, List.append_nil] at hr ⊢
      rw [firstPairings_concat hr, comparison?, ih]
      cases hd : ((new config).after ks).desynced with
      | true =>
        -- nothing is compared after a clash, and what is paired then stands behind it
        have hno : ((new config).after ks).counterpart? o = none := by
          rw [counterpart?]
          split <;> simp [hd]
        have hclash : ∃ p ∈ firstPairings (ofSide .local (submitted ks))
            (ofSide .remote (submitted ks)), ¬ p.Agrees := by
          by_contra hall
          push Not at hall
          have hopen := agrees_pairings.1 (ih ▸ throughClash_agrees_iff.2 hall)
          simp [hd] at hopen
        rw [throughClash_append hclash, hno]
        exact List.append_nil _
      | false =>
        obtain ⟨x, ha⟩ := awaiting_run config (retransmitted_left hr) hd
        have hagree := throughClash_agrees_iff.1 (ih ▸ agrees_pairings.2 hd)
        rw [met_eq_partner? hr ha hd (((new config).after ks).submission o),
          throughClash_concat hagree, throughClash_eq_self hagree]
        cases partner? (submitted ks) o <;> rfl

theorem finding_report (k : Conflict) (lastValid : Option Tick) (arbiterAtLastValid : Bool) :
    (k.report lastValid arbiterAtLastValid).finding =
      (Comparison.mk k.first k.second).pairing.finding := by
  simp only [Conflict.report, Comparison.pairing]
  split <;> rfl

theorem findings_run (config : Config) (ks : List Call) :
    ((new config).reports (ks ++ [.processPending])).map Report.finding =
      ((((new config).comparisons ks).map Comparison.pairing).find? (¬ ·.Agrees)).toList.map
        Pairing.finding := by
  have hcomp : (new config).comparisons (ks ++ [.processPending]) =
      (new config).comparisons ks := by
    rw [comparisons_append]
    exact List.append_nil _
  have hdone : ((new config).after (ks ++ [.processPending])).hasPending = false := by
    rw [after_append]
    exact hasPending_processPending _
  have hj := judged_run config (ks ++ [.processPending])
  have hpair : ∀ m ∈ (new config).comparisons ks, m.pairing.Agrees ↔ m.Agrees :=
    fun m hm => (paired_run hm).pairing.1
  rw [hcomp] at hj
  cases hj with
  | running _ hm _ hr =>
    have hnone : (((new config).comparisons ks).map Comparison.pairing).find? (¬ ·.Agrees) =
        none := by
      rw [List.find?_eq_none, List.forall_mem_map]
      intro m hmem
      simpa using (hpair m hmem).2 (hm m hmem)
    rw [hr, hnone]
    rfl
  | @ended k ns hms hm hc _ hp =>
    rcases hp with ⟨hp, -⟩ | ⟨-, hr⟩
    · simp [hasPending, hp] at hdone
    · rw [hms] at hpair
      have hnone : (ns.map Comparison.pairing).find? (¬ ·.Agrees) = none := by
        rw [List.find?_eq_none, List.forall_mem_map]
        intro m hmem
        simpa using (hpair m (List.mem_append_left _ hmem)).2 (hm m hmem)
      have hlast : ¬ (Comparison.mk k.first k.second).pairing.Agrees := by
        rw [hpair _ (by simp)]
        simp [Comparison.Agrees, hc]
      rw [hr, hms, List.map_append, List.find?_append, hnone, List.map_singleton, finding_report]
      simp [hlast]

/-- The run has gone through the pairings up to the first clash: it has compared
these, confirmed those that agree, and has desynced and reports the clash, if
there is one. -/
structure Decides (config : Config) (ks : List Call) (ps : List Pairing) : Prop where
  comparisons : ((new config).comparisons ks).map Comparison.pairing = throughClash ps
  confirmed : confirmedTicks ((new config).outcomes ks) =
    (ps.takeWhile (·.Agrees)).map (·.ours.start)
  lastValid : ((new config).after ks).lastValid =
    ((ps.takeWhile (·.Agrees)).map (·.ours.start)).getLast?
  desynced : ((new config).after ks).desynced = ps.any (¬ ·.Agrees)
  findings : ((new config).reports (ks ++ [.processPending])).map Report.finding =
    (ps.find? (¬ ·.Agrees)).toList.map Pairing.finding

theorem decides_of_comparisons
    (hps : ((new config).comparisons ks).map Comparison.pairing = throughClash ps) :
    Decides config ks ps := by
  have hconfirmed : confirmedTicks ((new config).outcomes ks) =
      (ps.takeWhile (·.Agrees)).map (·.ours.start) := by
    rw [confirmedTicks_eq, ← filter_throughClash, ← hps, List.filter_map, List.map_map]
    have hfilter : ((new config).comparisons ks).filter (·.Agrees) =
        ((new config).comparisons ks).filter (fun m => decide m.pairing.Agrees) := by
      refine List.filter_congr fun m hm => ?_
      rw [decide_eq_decide]
      exact (paired_run hm).pairing.1.symm
    rw [hfilter]
    refine List.map_congr_left fun m hm => ?_
    exact ((paired_run (List.mem_filter.1 hm).1).pairing.2).symm
  refine ⟨hps, hconfirmed, ?_, ?_, ?_⟩
  · rw [lastValid_run, hconfirmed]
  · rw [Bool.eq_iff_iff, List.any_eq_true, ← Bool.not_eq_false, ← agrees_pairings, hps,
      throughClash_agrees_iff]
    simp
  · rw [findings_run, hps, find?_throughClash]

/-- The calls submit the opinions of two streams, each in order. -/
structure Interleaves (ls rs : List Opinion) (ks : List Call) : Prop where
  locals : ofSide .local (submitted ks) = ls
  remotes : ofSide .remote (submitted ks) = rs

/-- The schedule decides nothing. Where local opinions start at increasing ticks
and remote ones at ticks that do not decrease, with room for all of them, every
interleaving compares each local opinion with the first remote one that starts
with it, in order, up to the first clash. Any two interleavings confirm the same
ticks and come to the same verdict, and report the same opinions and offset. -/
theorem verdicts_schedule_independent (config : Config) (ls rs : List Opinion)
    (hl : ls.Pairwise (·.start < ·.start)) (hr : rs.Pairwise (·.start ≤ ·.start))
    (hroom : ls.length ≤ config.maxBacklog) (hroom' : rs.length ≤ config.maxBacklog) :
    (∀ ks, Interleaves ls rs ks → Decides config ks (firstPairings ls rs)) ∧
      ∀ ks ks', Interleaves ls rs ks → Interleaves ls rs ks' →
        confirmedTicks ((new config).outcomes ks) = confirmedTicks ((new config).outcomes ks') ∧
          ((new config).after ks).lastValid = ((new config).after ks').lastValid ∧
          ((new config).after ks).desynced = ((new config).after ks').desynced ∧
          ((new config).reports (ks ++ [.processPending])).map Report.finding =
            ((new config).reports (ks' ++ [.processPending])).map Report.finding := by
  have hdecides : ∀ ks, Interleaves ls rs ks → Decides config ks (firstPairings ls rs) := by
    rintro ks ⟨rfl, rfl⟩
    refine decides_of_comparisons (pairings_run ⟨hl, hr, fun x => ?_⟩)
    cases x with
    | «local» => exact hroom
    | remote => exact hroom'
  refine ⟨hdecides, fun ks ks' hk hk' => ?_⟩
  have hd := hdecides ks hk
  have hd' := hdecides ks' hk'
  exact ⟨hd.confirmed.trans hd'.confirmed.symm, hd.lastValid.trans hd'.lastValid.symm,
    hd.desynced.trans hd'.desynced.symm, hd.findings.trans hd'.findings.symm⟩

/-- A remote opinion that disagrees and a repetition that does not: whether the
local opinion comes before both or after them, it meets the first. -/
theorem verdicts_schedule_independent_repeated :
    let ours : Opinion := { origin := .local, start := 3, world := [7] }
    let theirs : Opinion := { origin := .remote, start := 3, world := [8] }
    let mended : Opinion := { origin := .remote, start := 3, world := [7] }
    let early : List Call := [.submit ours, .submit theirs, .submit mended]
    let late : List Call := [.submit theirs, .submit mended, .submit ours]
    Interleaves [ours] [theirs, mended] early ∧ Interleaves [ours] [theirs, mended] late ∧
      Decides {} late [⟨ours, theirs⟩] ∧ ((new {}).after late).desynced = true ∧
      ((new {}).after early).desynced = true := by
  intro ours theirs mended early late
  have hearly : Interleaves [ours] [theirs, mended] early := ⟨by decide, by decide⟩
  have hlate : Interleaves [ours] [theirs, mended] late := ⟨by decide, by decide⟩
  obtain ⟨hdecides, hsame⟩ := verdicts_schedule_independent {} [ours] [theirs, mended]
    (by decide) (by decide) (by decide) (by decide)
  have hclash : ((new {}).after late).desynced = true := (hdecides late hlate).desynced
  exact ⟨hearly, hlate, hdecides late hlate, hclash,
    (hsame early late hearly hlate).2.2.1.trans hclash⟩

end Coordinator

end Lockstep
