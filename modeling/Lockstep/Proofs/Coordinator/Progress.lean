import Lockstep.Proofs.Coordinator.Verdict

/-! What the order of the local opinions alone decides: verdicts go forward, whatever the
other side sends. -/
namespace Lockstep

def LocalOrder (h : List Opinion) : Prop := (ofSide .local h).Pairwise (·.start < ·.start)

def Outcome.confirmed? : Outcome → Option Tick
  | .confirmed t => some t
  | _ => none

def confirmedTicks (rs : List Outcome) : List Tick := rs.filterMap Outcome.confirmed?

def Comparison.Involves (m : Comparison) (o : Opinion) : Prop := m.earlier = o ∨ m.later = o

instance (m : Comparison) (o : Opinion) : Decidable (m.Involves o) :=
  inferInstanceAs (Decidable (_ ∨ _))

namespace Coordinator

variable {c c' : Coordinator} {h g : List Opinion} {o v w : Opinion} {met : Option Opinion}
  {r : Outcome} {ks pre post : List Call} {m : Comparison} {ms : List Comparison} {t : Tick}

theorem localOrder_left (hl : LocalOrder (h ++ g)) : LocalOrder h := by
  rw [LocalOrder, ofSide_append] at hl
  exact (List.pairwise_append.1 hl).1

theorem lt_of_localOrder (hl : LocalOrder (h ++ [o])) (ho : o.origin = .local)
    (hv : v ∈ ofSide .local h) : v.start < o.start := by
  rw [LocalOrder, ofSide_concat_self ho] at hl
  exact (List.pairwise_append.1 hl).2.2 v hv o (List.mem_singleton.2 rfl)

theorem backlog_subset (hs : Submission c o met r c') (hv : v ∈ c'.backlog) :
    v = o ∨ v ∈ c.backlog := by
  cases hs with
  | ignored pool hd => exact Or.inr hv
  | alone hd hb => exact Or.inl (List.mem_singleton.1 hv)
  | overtaking pool hd hb ho hlt => exact Or.inl (List.mem_singleton.1 hv)
  | behind hd hb ho hroom =>
    rw [hb]
    exact (List.mem_append.1 hv).symm.imp_left List.mem_singleton.1
  | crowding pool hd hb ho hfull =>
    rw [hb]
    rcases List.mem_append.1 hv with hv | hv
    · exact Or.inr (List.mem_cons_of_mem _ hv)
    · exact Or.inl (List.mem_singleton.1 hv)
  | stale pool hd hb ho hsplit hlt hgt =>
    rw [hsplit]
    exact Or.inr (List.mem_append_right _ hv)
  | agreeing pool hd hb ho hsplit hlt heq hcmp =>
    rw [hsplit]
    exact Or.inr (List.mem_append_right _ (List.mem_cons_of_mem _ hv))
  | disagreeing pool hd hb ho hsplit hlt heq hcmp =>
    rw [hsplit]
    exact Or.inr (List.mem_append_right _ (List.mem_cons_of_mem _ hv))

/-- A comparison leaves only such local opinions waiting as start later. -/
theorem lt_of_met (hl : LocalOrder h) (hr : Recent h c) (hs : Submission c o (some w) r c')
    (hv : v ∈ c'.backlog) (hvo : v.origin = .local) : w.start < v.start := by
  obtain ⟨old, hb, hd⟩ : ∃ old, c.backlog = old ++ w :: c'.backlog ∧ c.desynced = false := by
    cases hs with
    | agreeing pool hd hb ho hsplit => exact ⟨_, hsplit, hd⟩
    | disagreeing pool hd hb ho hsplit => exact ⟨_, hsplit, hd⟩
  obtain ⟨x, hx⟩ := hr hd
  have hvx := (mem_of_suffix hx (v := v) (by simp [hb, hv])).2
  rw [← hvx, hvo, hb] at hx
  have hp := List.Pairwise.sublist hx.sublist hl
  exact (List.pairwise_cons.1 (List.pairwise_append.1 hp).2.1).1 v hv

/-- What goes forward in a run: the ticks of the comparisons increase, each is the start
of a local opinion, and the local opinions that wait are all of later start. -/
structure Forward (h : List Opinion) (ms : List Comparison) (c : Coordinator) : Prop where
  increasing : ms.Pairwise (·.earlier.start < ·.earlier.start)
  compared : ∀ m ∈ ms, ∃ v ∈ ofSide .local h, v.start = m.earlier.start
  ahead : c.desynced = false → ∀ w ∈ c.backlog, w.origin = .local →
    ∀ m ∈ ms, m.earlier.start < w.start

/-- A local opinion starts after all that has been compared before it. -/
theorem Forward.lt_local (hf : Forward h ms c) (hl : LocalOrder (h ++ [o]))
    (ho : o.origin = .local) (hm : m ∈ ms) : m.earlier.start < o.start := by
  obtain ⟨v, hv, hvm⟩ := hf.compared m hm
  rw [← hvm]
  exact lt_of_localOrder hl ho hv

/-- The next comparison is for a later tick, whichever of its two opinions is
the local one. -/
theorem Forward.lt_met (hf : Forward h ms c) (hl : LocalOrder (h ++ [o])) (hr : Recent h c)
    (hs : Submission c o (some w) r c') (hm : m ∈ ms) : m.earlier.start < w.start := by
  obtain ⟨hw, hne, heq⟩ := counterpart_submission hr hs
  rcases Origin.local_remote_of_ne hne with ⟨hwl, -⟩ | ⟨-, hol⟩
  · obtain ⟨front, rest, old, later, hd, -, -, hsplit, -⟩ := met_submission hs
    exact hf.ahead hd w (by simp [hsplit]) hwl m hm
  · rw [heq]
    exact hf.lt_local hl hol hm

theorem forward_submission (hl : LocalOrder (h ++ [o])) (hr : Recent h c) (hf : Forward h ms c)
    (hs : Submission c o met r c') :
    Forward (h ++ [o]) (ms ++ (met.map (Comparison.mk · o)).toList) c' := by
  have hkeep : ∀ m ∈ ms, ∃ v ∈ ofSide .local (h ++ [o]), v.start = m.earlier.start := by
    intro m hm
    obtain ⟨v, hv, hvm⟩ := hf.compared m hm
    rw [ofSide_append]
    exact ⟨v, List.mem_append_left _ hv, hvm⟩
  have hold : c'.desynced = false → ∀ v ∈ c'.backlog, v.origin = .local →
      ∀ m ∈ ms, m.earlier.start < v.start := by
    intro hd v hv hvo m hm
    rcases backlog_subset hs hv with rfl | hvb
    · exact hf.lt_local hl hvo hm
    · exact hf.ahead (desynced_submission hs hd) v hvb hvo m hm
  cases met with
  | none =>
    rw [Option.map_none, Option.toList_none, List.append_nil]
    exact ⟨hf.increasing, hkeep, hold⟩
  | some w =>
    rw [Option.map_some, Option.toList_some]
    obtain ⟨hw, hne, heq⟩ := counterpart_submission hr hs
    constructor
    · refine List.pairwise_append.2 ⟨hf.increasing, List.pairwise_singleton _ _, ?_⟩
      intro m hm k hk
      rw [List.mem_singleton.1 hk]
      exact hf.lt_met hl hr hs hm
    · intro m hm
      rcases List.mem_append.1 hm with hm | hm
      · exact hkeep m hm
      · rw [List.mem_singleton.1 hm]
        rcases Origin.local_remote_of_ne hne with ⟨hwl, -⟩ | ⟨-, hol⟩
        · exact ⟨w, mem_ofSide.2 ⟨List.mem_append_left _ hw, hwl⟩, rfl⟩
        · exact ⟨o, mem_ofSide.2 ⟨by simp, hol⟩, heq.symm⟩
    · intro hd v hv hvo m hm
      rcases List.mem_append.1 hm with hm | hm
      · exact hold hd v hv hvo m hm
      · rw [List.mem_singleton.1 hm]
        exact lt_of_met (localOrder_left hl) hr hs hv hvo

theorem forward_run (config : Config) (hl : LocalOrder (submitted ks)) :
    Forward (submitted ks) ((new config).comparisons ks) ((new config).after ks) := by
  have hrun : Recent (submitted ks) ((new config).after ks) ∧
      (LocalOrder (submitted ks) →
        Forward (submitted ks) ((new config).comparisons ks) ((new config).after ks)) := by
    refine run_induction (I := fun h ms _ c => Recent h c ∧ (LocalOrder h → Forward h ms c))
      ?_ ?_ ?_ ?_ ks
    · refine ⟨fun _ => ⟨.local, List.nil_suffix⟩, fun _ => ⟨List.Pairwise.nil, ?_, ?_⟩⟩ <;> simp
    · intro h ms rs c o met r c' ⟨hr, hf⟩ hs
      exact ⟨recent_submission hr hs,
        fun hl => forward_submission hl hr (hf (localOrder_left hl)) hs⟩
    · intro h ms rs c ⟨hr, hf⟩
      constructor
      · intro hd
        rw [backlog_processPending]
        exact hr (by simpa using hd)
      · intro hl
        refine { hf hl with ahead := ?_ }
        rw [desynced_processPending, backlog_processPending]
        exact (hf hl).ahead
    · intro h ms rs c _ _ _ _ ⟨hr, hf⟩
      exact ⟨hr, fun hl => { hf hl with ahead := (hf hl).ahead }⟩
  exact hrun.2 hl

theorem confirmedTicks_append (rs ss : List Outcome) :
    confirmedTicks (rs ++ ss) = confirmedTicks rs ++ confirmedTicks ss :=
  List.filterMap_append

theorem confirmedTicks_eq (c : Coordinator) (ks : List Call) :
    confirmedTicks (c.outcomes ks) =
      ((c.comparisons ks).filter (·.Agrees)).map (·.earlier.start) := by
  have hverdict : confirmedTicks (c.outcomes ks) =
      confirmedTicks ((c.outcomes ks).filter (·.IsVerdict)) := by
    rw [confirmedTicks, confirmedTicks, List.filterMap_filter]
    congr 1
    funext r
    cases r <;> rfl
  rw [hverdict, verdicts_eq, confirmedTicks, List.filterMap_map]
  induction c.comparisons ks with
  | nil => rfl
  | cons m ms ih =>
    by_cases hm : m.Agrees <;>
      simp [Comparison.outcome, Outcome.confirmed?, hm, ih]

theorem lastValid_run (config : Config) (ks : List Call) :
    ((new config).after ks).lastValid =
      (confirmedTicks ((new config).outcomes ks)).getLast? := by
  rw [confirmedTicks_eq, List.getLast?_map]
  cases judged_run config ks with
  | running _ hm hl _ =>
    rw [hl, List.filter_eq_self.2 (by simpa using hm)]
  | @ended k ns hms hm hc hl _ =>
    have hk : ¬ Comparison.Agrees ⟨k.first, k.second⟩ := by simp [Comparison.Agrees, hc]
    rw [hl, hms, List.filter_append, List.filter_eq_self.2 (by simpa using hm)]
    simp [hk]

/-- Where starts increase, at most one element has a given start. -/
theorem countP_le_one {α : Type} {start : α → Tick} {l : List α} {p : α → Bool}
    (hl : l.Pairwise (start · < start ·)) (hp : ∀ x ∈ l, p x = true → start x = t) :
    l.countP p ≤ 1 := by
  induction l with
  | nil => exact Nat.zero_le 1
  | cons x l ih =>
    obtain ⟨hx, hl⟩ := List.pairwise_cons.1 hl
    obtain ⟨hpx, hp⟩ := List.forall_mem_cons.1 hp
    by_cases hpos : p x = true
    · have hzero : l.countP p = 0 := by
        rw [List.countP_eq_zero]
        intro y hy hpy
        have hlt := hx y hy
        rw [hpx hpos, hp y hy hpy] at hlt
        exact UInt32.lt_irrefl _ hlt
      rw [List.countP_cons_of_pos hpos, hzero]
    · rw [List.countP_cons_of_neg hpos]
      exact ih hl hp

/-- What is compared after a confirmation starts later. -/
theorem lt_of_lastValid {config : Config} (hl : LocalOrder (submitted (pre ++ post)))
    (ht : ((new config).after pre).lastValid = some t)
    (hm : m ∈ ((new config).after pre).comparisons post) : t < m.earlier.start := by
  rw [lastValid_run, confirmedTicks_eq] at ht
  obtain ⟨k, hk, rfl⟩ := List.mem_map.1 (List.mem_of_getLast? ht)
  have hp := (forward_run config hl).increasing
  rw [comparisons_append] at hp
  exact (List.pairwise_append.1 hp).2.2 k (List.mem_filter.1 hk).1 m hm

theorem lastValid_mono {config : Config} (hl : LocalOrder (submitted (pre ++ post)))
    (ht : ((new config).after pre).lastValid = some t) :
    ∃ u, ((new config).after (pre ++ post)).lastValid = some u ∧ t ≤ u := by
  rw [lastValid_run] at ht
  rw [lastValid_run, outcomes_append, confirmedTicks_append, List.getLast?_append, ht]
  cases hu : (confirmedTicks (((new config).after pre).outcomes post)).getLast? with
  | none => exact ⟨t, rfl, UInt32.le_refl t⟩
  | some u =>
    rw [confirmedTicks_eq] at hu
    obtain ⟨k, hk, rfl⟩ := List.mem_map.1 (List.mem_of_getLast? hu)
    rw [← lastValid_run] at ht
    exact ⟨_, rfl, UInt32.le_of_lt (lt_of_lastValid hl ht (List.mem_filter.1 hk).1)⟩

theorem not_verdict_of_unmet
    (hno : ∀ m ∈ c.comparisons (.submit o :: post), ¬ m.Involves o) :
    ¬ (c.submit o).value.1.IsVerdict := by
  intro hv
  have hs := verdict_submission (c.submission o)
  cases hmet : c.counterpart? o with
  | none => simp [hmet, hv] at hs
  | some w =>
    refine hno ⟨w, o⟩ ?_ (Or.inr rfl)
    simp [comparisons, comparison?, hmet]

/-- With local opinions by increasing start, whatever the other side sends, in
whatever order: the verdicts of a run are those of its comparisons, no local
opinion is compared twice, ticks are confirmed by increasing start, and the last
valid tick never moves back. A remote opinion that starts no later than it is
compared with nothing any more, whether it comes late or has been waiting, and
decides nothing. -/
theorem confirmations_stand (config : Config) (ks : List Call)
    (hl : LocalOrder (submitted ks)) :
    ((new config).outcomes ks).filter (·.IsVerdict) =
        ((new config).comparisons ks).map Comparison.outcome ∧
      (∀ a ∈ ofSide .local (submitted ks),
        ((new config).comparisons ks).countP (·.Involves a) ≤ 1) ∧
      (confirmedTicks ((new config).outcomes ks)).Pairwise (· < ·) ∧
      ∀ pre post t, ks = pre ++ post → ((new config).after pre).lastValid = some t →
        (∃ u, ((new config).after ks).lastValid = some u ∧ t ≤ u) ∧
          ∀ b : Opinion, b.origin = .remote → b.start ≤ t →
            (∀ m ∈ ((new config).after pre).comparisons post, ¬ m.Involves b) ∧
              ∀ mid rest, post = mid ++ .submit b :: rest →
                ¬ (((new config).after (pre ++ mid)).submit b).value.1.IsVerdict := by
  have hp := (forward_run config hl).increasing
  refine ⟨verdicts_eq _ ks, fun a ha => ?_, ?_, ?_⟩
  · apply countP_le_one (t := a.start) hp
    intro m hm hinv
    rcases of_decide_eq_true hinv with rfl | rfl
    · rfl
    · exact (paired_run hm).start_eq
  · rw [confirmedTicks_eq, List.pairwise_map]
    exact hp.filter _
  · rintro pre post t rfl ht
    refine ⟨lastValid_mono hl ht, fun b _ hb => ?_⟩
    have hno : ∀ m ∈ ((new config).after pre).comparisons post, ¬ m.Involves b := by
      intro m hm hinv
      have hlt := lt_of_lastValid hl ht hm
      have hrun : m ∈ (new config).comparisons (pre ++ post) := by
        rw [comparisons_append]
        exact List.mem_append_right _ hm
      rcases hinv with rfl | rfl
      · exact UInt32.not_lt.2 hb hlt
      · exact UInt32.not_lt.2 hb ((paired_run hrun).start_eq ▸ hlt)
    refine ⟨hno, ?_⟩
    rintro mid rest rfl
    have hrest : ∀ m ∈ ((new config).after (pre ++ mid)).comparisons (.submit b :: rest),
        ¬ m.Involves b := by
      intro m hm
      refine hno m ?_
      rw [comparisons_append, ← after_append]
      exact List.mem_append_right _ hm
    exact not_verdict_of_unmet hrest

/-- A remote opinion that repeats a confirmed tick with other content waits for
a counterpart in vain: the next local opinion passes it by. -/
theorem confirmations_stand_repeated :
    let ours : Opinion := { origin := .local, start := 3, world := [7] }
    let theirs : Opinion := { origin := .remote, start := 3, world := [7] }
    let forged : Opinion := { origin := .remote, start := 3, world := [8] }
    let next : Opinion := { origin := .local, start := 4 }
    let pre : List Call := [.submit ours, .submit theirs]
    LocalOrder (submitted (pre ++ [.submit forged, .submit next])) ∧
      ((new {}).after pre).lastValid = some 3 ∧ forged.origin = .remote ∧ forged.start ≤ 3 ∧
      (∀ m ∈ ((new {}).after pre).comparisons [.submit forged, .submit next],
        ¬ m.Involves forged) ∧
      ¬ (((new {}).after pre).submit forged).value.1.IsVerdict := by
  intro ours theirs forged next pre
  have hl : LocalOrder (submitted (pre ++ [.submit forged, .submit next])) := by
    unfold LocalOrder
    decide
  have ht : ((new {}).after pre).lastValid = some 3 := by decide
  obtain ⟨-, -, -, hstand⟩ := confirmations_stand {} _ hl
  obtain ⟨-, hlate⟩ := hstand pre [.submit forged, .submit next] 3 rfl ht
  obtain ⟨hno, hquiet⟩ := hlate forged rfl (by decide)
  exact ⟨hl, ht, rfl, by decide, hno, hquiet [] [.submit next] rfl⟩

end Coordinator

end Lockstep
