import Lockstep.Proofs.Coordinator.Progress
import Lockstep.Proofs.Coordinator.Survival

/-! Which opinions meet when both sides submit theirs by increasing start. -/
namespace Lockstep.Coordinator

variable {c c' : Coordinator} {h : List Opinion} {x : Origin} {a b o w z : Opinion}
  {met : Option Opinion} {r : Outcome} {ks pre mid post : List Call} {m : Comparison}

/-- How many opinions follow `a` on its own side during some calls. -/
def lag (a : Opinion) (mid : List Call) : Nat := (ofSide a.origin (submitted mid)).length

/-- An opinion that does not start after all that wait for it meets the one
that starts with it, or comes too late for it. -/
theorem submission_waiting (hst : Streams h) (hx : c.backlog <:+ ofSide x h)
    (hd : c.desynced = false) (hz : z ∈ c.backlog) (hne : z.origin ≠ o.origin)
    (hle : o.start ≤ z.start) (hs : Submission c o met r c') :
    (r = .discarded ∧ ∀ v ∈ c.backlog, v.start ≠ o.start) ∨
      ∃ w ∈ c.backlog, met = some w ∧ w.start = o.start := by
  have hzx := (mem_of_suffix hx hz).2
  cases hs with
  | ignored pool hdes => simp [hd] at hdes
  | alone _ hb => simp [hb] at hz
  | @behind front rest _ hb ho _ =>
    have hfx := (mem_of_suffix hx (v := front) (by simp [hb])).2
    exact absurd (hzx.trans (hfx.symm.trans ho)) hne
  | @crowding front rest pool _ hb ho _ =>
    have hfx := (mem_of_suffix hx (v := front) (by simp [hb])).2
    exact absurd (hzx.trans (hfx.symm.trans ho)) hne
  | overtaking pool _ hb ho hlt => exact absurd (hlt z hz) (UInt32.not_lt.2 hle)
  | @stale front w rest old later pool _ hb ho hsplit hlt hgt =>
    left
    refine ⟨rfl, ?_⟩
    intro v hv heq
    have hlater := lt_of_backlog hst hx hsplit
    rw [hsplit] at hv
    rcases List.mem_append.1 hv with hv | hv
    · exact UInt32.lt_irrefl _ (heq ▸ hlt v hv)
    · rcases List.mem_cons.1 hv with rfl | hv
      · exact UInt32.lt_irrefl _ (heq ▸ hgt)
      · exact UInt32.lt_irrefl _ (UInt32.lt_trans hgt (heq ▸ hlater v hv))
  | @agreeing front w _ _ _ pool _ hb ho hsplit hlt heq hcmp =>
    exact Or.inr ⟨w, by simp [hsplit], rfl, heq⟩
  | @disagreeing front w _ _ _ cause pool _ hb ho hsplit hlt heq hcmp =>
    exact Or.inr ⟨w, by simp [hsplit], rfl, heq⟩

theorem mem_backlog_of_met (hs : Submission c o (some w) r c') :
    c.desynced = false ∧ w ∈ c.backlog := by
  obtain ⟨front, rest, old, later, hd, -, -, hsplit, -⟩ := met_submission hs
  exact ⟨hd, by simp [hsplit]⟩

theorem met_iff_waits (hst : Streams (h ++ [o])) (hr : Recent h c) (he : Exact h c)
    (hd : c.desynced = false) (hs : Submission c o met r c') :
    met = some w ↔ Waits c.config.window h w ∧ w.origin ≠ o.origin ∧ w.start = o.start := by
  constructor
  · rintro rfl
    obtain ⟨-, hne, heq⟩ := counterpart_submission hr hs
    exact ⟨(he hd w).1 (mem_backlog_of_met hs).2, hne, heq⟩
  · rintro ⟨hwait, hne, heq⟩
    obtain ⟨x, hx⟩ := hr hd
    have hst' := streams_left hst
    have hw := (he hd w).2 hwait
    have hle : o.start ≤ w.start := heq ▸ UInt32.le_refl _
    rcases submission_waiting hst' hx hd hw hne hle hs with ⟨-, hno⟩ | ⟨v, hv, hmet, hveq⟩
    · exact absurd heq (hno w hw)
    · rw [hmet, eq_of_mem_ofSide hst' (hx.subset hv) (hx.subset hw) (hveq.trans heq.symm)]

theorem discarded_of_crowded (hst : Streams (h ++ [o])) (hr : Recent h c) (he : Exact h c)
    (hd : c.desynced = false) (hs : Submission c o met r c') (ha : a ∈ h)
    (hne : a.origin ≠ o.origin) (heq : a.start = o.start)
    (hfull : c.config.window ≤ behind h a) : r = .discarded := by
  have hst' := streams_left hst
  obtain ⟨x, hx⟩ := hr hd
  -- the newest opinion of that side has not been crowded out
  have hle : o.start ≤ a.start := heq ▸ UInt32.le_refl _
  obtain ⟨z, hz, hzo, haz⟩ := exists_waiting hst (window_pos c.config) ha hne hle
  have hzne : z.origin ≠ o.origin := hzo ▸ hne
  have hzb := (he hd z).2 hz
  rcases submission_waiting hst' hx hd hzb hzne (heq ▸ haz) hs with ⟨hr, -⟩ | ⟨w, hw, -, hweq⟩
  · exact hr
  · have hax : a.origin = x := hzo.symm.trans (mem_of_suffix hx hzb).2
    have hwa : w = a :=
      eq_of_mem_ofSide hst' (hx.subset hw) (mem_ofSide.2 ⟨ha, hax⟩) (hweq.trans heq.symm)
    have hroom := ((he hd w).1 hw).room
    rw [hwa] at hroom
    omega

theorem lt_of_paired (hst : Streams (h ++ [o])) (hm : m.Paired h) : m.earlier.start < o.start := by
  by_cases ho : m.earlier.origin = o.origin
  · exact lt_of_streams hst hm.earlier_mem ho
  · have hl : m.later.origin = o.origin :=
      Origin.eq_of_ne_of_ne (Ne.symm hm.origin_ne) (Ne.symm ho)
    rw [hm.start_eq]
    exact lt_of_streams hst hm.later_mem hl

theorem pairwise_comparisons (config : Config) (hst : Streams (submitted ks)) :
    ((new config).comparisons ks).Pairwise (·.earlier.start < ·.earlier.start) :=
  (forward_run config (hst .local)).increasing

theorem streams_submitted (hst : Streams (submitted (pre ++ .submit b :: post))) :
    Streams (submitted pre ++ [b]) := by
  rw [submitted_append, submitted_cons, Call.opinion?, Option.toList_some,
    ← List.append_assoc] at hst
  exact streams_left hst

theorem behind_eq_lag (hst : Streams (submitted (pre ++ .submit a :: mid))) :
    behind (submitted (pre ++ .submit a :: mid)) a = lag a mid := by
  refine behind_eq (s := ofSide a.origin (submitted pre)) hst ?_
  rw [submitted_append, submitted_cons, ofSide_append, ofSide_append]
  simp [Call.opinion?, ofSide]

/-- Once `a` is submitted, an opinion that starts with it meets it just if
fewer than a window of others have followed it. -/
theorem counterpart_iff_lag {config : Config}
    (hst : Streams (submitted (pre ++ .submit a :: mid) ++ [b]))
    (hne : a.origin ≠ b.origin) (heq : a.start = b.start)
    (hd : ((new config).after (pre ++ .submit a :: mid)).desynced = false) :
    ((new config).after (pre ++ .submit a :: mid)).counterpart? b = some a ↔
      lag a mid < config.window := by
  have hst' := streams_left hst
  have hwaits := met_iff_waits (w := a) hst (recent_run config _) (exact_run config _ hst') hd
    (submission _ b)
  rw [hwaits, config_run]
  constructor
  · rintro ⟨hwait, -, -⟩
    rw [← behind_eq_lag hst']
    exact hwait.room
  · intro hlag
    refine ⟨⟨by simp [mem_submitted], ?_, ?_⟩, hne, heq⟩
    · rw [behind_eq_lag hst']
      exact hlag
    · intro v hv hvo
      rw [heq]
      exact lt_of_streams hst hv (Origin.eq_of_ne_of_ne hvo (Ne.symm hne))

/-- The answer to it is the verdict on the two, or tells that it comes too late. -/
theorem answer_of_lag {config : Config}
    (hst : Streams (submitted (pre ++ .submit a :: mid) ++ [b]))
    (hne : a.origin ≠ b.origin) (heq : a.start = b.start)
    (hd : ((new config).after (pre ++ .submit a :: mid)).desynced = false) :
    (((new config).after (pre ++ .submit a :: mid)).submit b).value.1 =
      if lag a mid < config.window then Comparison.outcome ⟨a, b⟩ else .discarded := by
  have hs := ((new config).after (pre ++ .submit a :: mid)).submission b
  by_cases hlag : lag a mid < config.window
  · rw [(counterpart_iff_lag hst hne heq hd).2 hlag] at hs
    obtain ⟨front, rest, old, later, -, -, -, -, -, hr⟩ := met_submission hs
    rw [if_pos hlag]
    exact hr
  · have hst' := streams_left hst
    rw [if_neg hlag]
    refine discarded_of_crowded hst (recent_run config _) (exact_run config _ hst') hd hs
      (by simp [mem_submitted]) hne heq ?_
    rw [config_run, behind_eq_lag hst']
    exact Nat.le_of_not_lt hlag

/-- The detection window is exact. A run gives its verdicts in the order of
its comparisons, which go by increasing start. Two opinions are compared just
if they start together, fewer than a window of others follow the first before
the second is submitted, and nothing has disagreed until then. Unless something
has, the second is answered by the verdict on both, or discarded if more follow
the first. -/
theorem comparisons_window (config : Config) (ks : List Call) (hst : Streams (submitted ks)) :
    ((new config).outcomes ks).filter (·.IsVerdict) =
        ((new config).comparisons ks).map Comparison.outcome ∧
      ((new config).comparisons ks).Pairwise (·.earlier.start < ·.earlier.start) ∧
      (∀ a b, ⟨a, b⟩ ∈ (new config).comparisons ks ↔
        ∃ pre mid post, ks = pre ++ .submit a :: mid ++ .submit b :: post ∧
          a.origin ≠ b.origin ∧ a.start = b.start ∧ lag a mid < config.window ∧
          ∀ m ∈ (new config).comparisons (pre ++ .submit a :: mid), m.Agrees) ∧
      ∀ a b pre mid post, ks = pre ++ .submit a :: mid ++ .submit b :: post →
        a.origin ≠ b.origin → a.start = b.start →
        ((new config).after (pre ++ .submit a :: mid)).desynced = false →
        (((new config).after (pre ++ .submit a :: mid)).submit b).value.1 =
          if lag a mid < config.window then Comparison.outcome ⟨a, b⟩ else .discarded := by
  refine ⟨verdicts_eq _ ks, pairwise_comparisons config hst, fun a b => ⟨?_, ?_⟩, ?_⟩
  · intro hm
    obtain ⟨pre, mid, post, hks, hmet⟩ := split_of_comparison hm
    obtain ⟨-, -, hne, heq⟩ := paired_run hm
    have hs := ((new config).after (pre ++ .submit a :: mid)).submission b
    rw [hmet] at hs
    have hd := (mem_backlog_of_met hs).1
    have hst' := streams_submitted (hks ▸ hst)
    exact ⟨pre, mid, post, hks, hne, heq, (counterpart_iff_lag hst' hne heq hd).1 hmet,
      desynced_run_eq_false.1 hd⟩
  · rintro ⟨pre, mid, post, hks, hne, heq, hlag, hagree⟩
    have hd := desynced_run_eq_false.2 hagree
    have hst' := streams_submitted (hks ▸ hst)
    exact mem_comparisons.2 ⟨_, post, hks, (counterpart_iff_lag hst' hne heq hd).2 hlag⟩
  · intro a b pre mid post hks hne heq hd
    exact answer_of_lag (streams_submitted (hks ▸ hst)) hne heq hd

/-- In a window of one, the first two opinions agree. Then the third local one crowds
out the second, whose counterpart is discarded, and meets one that does not agree. -/
theorem comparisons_window_one :
    let ours (t : Tick) : Opinion := { origin := .local, start := t }
    let theirs (t : Tick) (xs : List Sample) : Opinion :=
      { origin := .remote, start := t, world := xs }
    let config : Config := { maxBacklog := 1 }
    let pre : List Call := [ours 0, theirs 0 [], ours 1, ours 2].map .submit
    let ks := pre ++ [.submit (theirs 1 []), .submit (theirs 2 [7])]
    Streams (submitted ks) ∧
      ⟨ours 0, theirs 0 []⟩ ∈ (new config).comparisons ks ∧
      (((new config).after pre).submit (theirs 1 [])).value.1 = .discarded ∧
      ⟨ours 2, theirs 2 [7]⟩ ∈ (new config).comparisons ks ∧
      (((new config).after (pre ++ [.submit (theirs 1 [])])).submit (theirs 2 [7])).value.1 =
        .desynced := by
  intro ours theirs config pre ks
  have hst : Streams (submitted ks) := by
    intro x
    cases x <;> decide
  obtain ⟨-, -, hcompared, hanswer⟩ := comparisons_window config ks hst
  refine ⟨hst, ?_, ?_, ?_, ?_⟩
  · refine (hcompared _ _).2 ⟨[], [], ks.drop 2, rfl, by decide, rfl, by decide, ?_⟩
    decide
  · exact hanswer (ours 1) (theirs 1 []) (pre.take 2) [.submit (ours 2)] _ rfl (by decide) rfl rfl
  · refine (hcompared _ _).2 ⟨pre.take 3, [.submit (theirs 1 [])], [], rfl, by decide, rfl,
      by decide, ?_⟩
    decide
  · exact hanswer (ours 2) (theirs 2 [7]) (pre.take 3) [.submit (theirs 1 [])] [] rfl (by decide)
      rfl rfl

end Lockstep.Coordinator
