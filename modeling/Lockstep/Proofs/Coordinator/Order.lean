import Lockstep.Proofs.Coordinator.Survival

/-! The order of the backlog: which submissions keep it, and what depends on it. -/
namespace Lockstep.Coordinator

variable {c c' : Coordinator} {h : List Opinion} {o v w : Opinion} {met : Option Opinion}
  {r : Outcome} {k : Call} {ks : List Call}

/-- Those that wait start one after the other, or together. -/
def Ordered (c : Coordinator) : Prop := c.backlog.Pairwise (·.start ≤ ·.start)

instance (c : Coordinator) : Decidable c.Ordered :=
  inferInstanceAs (Decidable (List.Pairwise _ _))

/-- The opinion starts no earlier than those of its own side that wait. -/
def InTurn (c : Coordinator) (o : Opinion) : Prop :=
  c.desynced = false → ∀ v ∈ c.backlog, v.origin = o.origin → v.start ≤ o.start

theorem Recent.origin_eq (hr : Recent h c) (hd : c.desynced = false) (hv : v ∈ c.backlog)
    (hw : w ∈ c.backlog) : v.origin = w.origin := by
  obtain ⟨x, hx⟩ := hr hd
  rw [(mem_of_suffix hx hv).2, (mem_of_suffix hx hw).2]

theorem ordered_concat {l : List Opinion} (hl : l.Pairwise (·.start ≤ ·.start))
    (ho : ∀ v ∈ l, v.start ≤ o.start) : (l ++ [o]).Pairwise (·.start ≤ ·.start) := by
  refine List.pairwise_append.2 ⟨hl, List.pairwise_singleton _ _, ?_⟩
  intro v hv w hw
  cases List.mem_singleton.1 hw
  exact ho v hv

theorem ordered_submission (hc : c.Ordered) (hr : Recent h c) (hin : c.InTurn o)
    (hs : Submission c o met r c') : c'.Ordered := by
  have hturn : c.desynced = false → ∀ front ∈ c.backlog, front.origin = o.origin →
      ∀ v ∈ c.backlog, v.start ≤ o.start := by
    intro hd front hf ho v hv
    apply hin hd v hv
    rw [← ho]
    exact hr.origin_eq hd hv hf
  cases hs with
  | ignored pool hd => exact hc
  | alone hd hb => exact List.pairwise_singleton _ _
  | overtaking pool hd hb ho hlt => exact List.pairwise_singleton _ _
  | @behind front rest hd hb ho hroom =>
    have hle := hturn hd front (by simp [hb]) ho
    rw [hb] at hle
    exact ordered_concat (hb ▸ hc) hle
  | @crowding front rest pool hd hb ho hfull =>
    have hle := hturn hd front (by simp [hb]) ho
    have hrest : rest.Pairwise (·.start ≤ ·.start) := by
      have hall : (front :: rest).Pairwise (·.start ≤ ·.start) := hb ▸ hc
      exact (List.pairwise_cons.1 hall).2
    apply ordered_concat hrest
    intro v hv
    exact hle v (hb ▸ List.mem_cons_of_mem front hv)
  | stale pool hd hb ho hsplit hlt hgt =>
    have hall := hc
    rw [Ordered, hsplit] at hall
    exact (List.pairwise_append.1 hall).2.1
  | agreeing pool hd hb ho hsplit hlt heq hcmp =>
    have hall := hc
    rw [Ordered, hsplit] at hall
    exact (List.pairwise_cons.1 (List.pairwise_append.1 hall).2.1).2
  | disagreeing pool hd hb ho hsplit hlt heq hcmp =>
    have hall := hc
    rw [Ordered, hsplit] at hall
    exact (List.pairwise_cons.1 (List.pairwise_append.1 hall).2.1).2

/-- Where two opinions may wait, one that comes out of its turn breaks the order. -/
theorem inTurn_of_ordered (hc : c.Ordered) (hr : Recent h c) (hs : Submission c o met r c')
    (hc' : c'.Ordered) (hroom : 1 < c.config.maxBacklog) : c.InTurn o := by
  intro hd v hv hvo
  have hside : ∀ front ∈ c.backlog, front.origin = o.origin := by
    intro front hf
    rw [← hvo]
    exact hr.origin_eq hd hf hv
  cases hs with
  | ignored pool hd' => simp [hd] at hd'
  | alone hd hb => simp [hb] at hv
  | behind hd hb ho hfits =>
    rw [hb] at hv
    exact (List.pairwise_append.1 hc').2.2 v hv o (List.mem_singleton.2 rfl)
  | @crowding front rest pool hd hb ho hfull =>
    have hlast : ∀ w ∈ rest, w.start ≤ o.start := by
      intro w hw
      exact (List.pairwise_append.1 hc').2.2 w hw o (List.mem_singleton.2 rfl)
    have hall : (front :: rest).Pairwise (·.start ≤ ·.start) := hb ▸ hc
    rw [hb] at hv
    cases hv with
    | tail _ hv => exact hlast v hv
    | head =>
      -- the front is crowded out, and a later one stays to witness its place
      cases rest with
      | nil => simp only [List.length_nil] at hfull; omega
      | cons w rest =>
        have hfw := (List.pairwise_cons.1 hall).1 w List.mem_cons_self
        exact UInt32.le_trans hfw (hlast w List.mem_cons_self)
  | overtaking pool hd hb ho hlt => exact absurd (hside _ (hb ▸ List.mem_cons_self)) ho
  | stale pool hd hb ho hsplit hlt hgt => exact absurd (hside _ (hb ▸ List.mem_cons_self)) ho
  | agreeing pool hd hb ho hsplit hlt heq hcmp =>
    exact absurd (hside _ (hb ▸ List.mem_cons_self)) ho
  | disagreeing pool hd hb ho hsplit hlt heq hcmp =>
    exact absurd (hside _ (hb ▸ List.mem_cons_self)) ho

theorem start_ne_of_discarded (hc : c.Ordered) (hs : Submission c o met .discarded c')
    (hw : w ∈ c.backlog) : w.start ≠ o.start := by
  cases hs with
  | @stale front first rest old later pool hd hb ho hsplit hlt hgt =>
    have hall := hc
    rw [Ordered, hsplit] at hall
    have hlater := (List.pairwise_cons.1 (List.pairwise_append.1 hall).2.1).1
    rw [hsplit] at hw
    intro he
    rcases List.mem_append.1 hw with hold | hnew
    · exact UInt32.lt_irrefl _ (he ▸ hlt w hold)
    · rcases List.mem_cons.1 hnew with rfl | hw
      · exact UInt32.lt_irrefl _ (he ▸ hgt)
      · exact UInt32.lt_irrefl _ (UInt32.lt_of_lt_of_le hgt (he ▸ hlater w hw))

theorem length_submission (hl : c.backlog.length ≤ c.config.window)
    (hs : Submission c o met r c') : c'.backlog.length ≤ c'.config.window := by
  have hpos := window_pos c.config
  have hcap : c.config.maxBacklog ≤ c.config.window := Nat.le_max_right ..
  cases hs with
  | ignored pool hd => exact hl
  | alone hd hb => exact hpos
  | overtaking pool hd hb ho hlt => exact hpos
  | behind hd hb ho hroom =>
    simp only [List.length_append, List.length_cons, List.length_nil]
    omega
  | crowding pool hd hb ho hfull =>
    simp only [hb, List.length_cons] at hl
    simp only [List.length_append, List.length_cons, List.length_nil]
    omega
  | stale pool hd hb ho hsplit hlt hgt =>
    simp only [hsplit, List.length_append, List.length_cons] at hl
    simp only [List.length_cons]
    omega
  | agreeing pool hd hb ho hsplit hlt heq hcmp =>
    simp only [hsplit, List.length_append, List.length_cons] at hl
    dsimp only
    omega
  | disagreeing pool hd hb ho hsplit hlt heq hcmp =>
    simp only [hsplit, List.length_append, List.length_cons] at hl
    dsimp only
    omega

theorem length_run (config : Config) (ks : List Call) :
    ((new config).after ks).backlog.length ≤ ((new config).after ks).config.window := by
  refine backlog_run (I := fun _ c => c.backlog.length ≤ c.config.window) ?_ ?_ ?_ ks
  · exact Nat.zero_le _
  · intro h c o met r c' hl hs
    exact length_submission hl hs
  · intro h c c' _ hb hc hl
    rw [hb, hc]
    exact hl

theorem backlog_perform (ho : k.opinion? = none) :
    (c.perform k).value.2.backlog = c.backlog := by
  by_cases hp : k = .processPending
  · subst k
    exact backlog_processPending c
  · obtain ⟨-, -, current, pool, arbiterPlaying, catchUpTarget, he⟩ := perform_aside (c := c) ho hp
    rw [he]

theorem ordered_run {config : Config} (hin : ∀ pre o post, ks = pre ++ .submit o :: post →
    ((new config).after pre).InTurn o) : ((new config).after ks).Ordered := by
  induction ks using List.reverseRecOn with
  | nil => exact List.Pairwise.nil
  | append_singleton ks k ih =>
    have hc : ((new config).after ks).Ordered := by
      apply ih
      intro pre o post hks
      exact hin pre o (post ++ [k]) (by simp [hks])
    rw [after_append, after_cons, after_nil]
    cases ho : k.opinion? with
    | none =>
      rw [Ordered, backlog_perform ho]
      exact hc
    | some o =>
      obtain rfl := eq_submit ho
      exact ordered_submission hc (recent_run config ks) (hin ks o [] rfl)
        (((new config).after ks).submission o)

/-- Where no more than one opinion may wait, there is nothing to be out of order. -/
theorem ordered_of_small {config : Config} (hsmall : config.maxBacklog ≤ 1) (ks : List Call) :
    ((new config).after ks).Ordered := by
  have hl := length_run config ks
  rw [config_run, Config.window] at hl
  rw [Ordered]
  cases hb : ((new config).after ks).backlog with
  | nil => exact List.Pairwise.nil
  | cons v rest =>
    cases rest with
    | nil => exact List.pairwise_singleton _ _
    | cons w rest =>
      simp only [hb, List.length_cons] at hl
      omega

theorem inTurn_of_sides {config : Config} {pre post : List Call}
    (hks : ∀ x, (ofSide x (submitted (pre ++ .submit o :: post))).Pairwise (·.start ≤ ·.start)) :
    ((new config).after pre).InTurn o := by
  intro hd v hv hvo
  obtain ⟨x, hx⟩ := recent_run config pre hd
  have hvx := mem_of_suffix hx hv
  have hall := hks o.origin
  rw [submitted_append, ofSide_append] at hall
  refine (List.pairwise_append.1 hall).2.2 v (mem_ofSide.2 ⟨hvx.1, hvo⟩) o ?_
  simp [submitted_cons, Call.opinion?]

/-- The backlog stays in order of start through a whole run just if every
opinion comes in its turn, or no two may wait; so it does where either side
submits by order of start. As long as it is in order, an opinion is discarded
only if none that starts with it waits. -/
theorem backlog_ordered (config : Config) (ks : List Call) :
    ((∀ pre, pre <+: ks → ((new config).after pre).Ordered) ↔
        config.maxBacklog ≤ 1 ∨ ∀ pre o post, ks = pre ++ .submit o :: post →
          ((new config).after pre).InTurn o) ∧
      ((∀ x, (ofSide x (submitted ks)).Pairwise (·.start ≤ ·.start)) →
        ∀ pre, pre <+: ks → ((new config).after pre).Ordered) ∧
      ∀ pre o post, ks = pre ++ .submit o :: post → ((new config).after pre).Ordered →
        (((new config).after pre).submit o).value.1 = .discarded →
        ∀ w ∈ ((new config).after pre).backlog, w.start ≠ o.start := by
  have hkeeps : (∀ pre o post, ks = pre ++ .submit o :: post →
      ((new config).after pre).InTurn o) →
      ∀ pre, pre <+: ks → ((new config).after pre).Ordered := by
    rintro hin pre ⟨rest, rfl⟩
    apply ordered_run
    rintro front o post rfl
    exact hin front o (post ++ rest) (by simp)
  refine ⟨⟨?_, ?_⟩, ?_, ?_⟩
  · intro hall
    by_cases hsmall : config.maxBacklog ≤ 1
    · exact Or.inl hsmall
    · right
      rintro pre o post rfl
      have hc := hall pre (List.prefix_append _ _)
      have hc' := hall (pre ++ [.submit o]) ⟨post, by simp⟩
      rw [after_append, after_cons, after_nil] at hc'
      have hs := ((new config).after pre).submission o
      refine inTurn_of_ordered hc (recent_run config pre) hs hc' ?_
      rw [config_run]
      omega
  · rintro (hsmall | hin)
    · exact fun pre _ => ordered_of_small hsmall pre
    · exact hkeeps hin
  · intro hsides
    apply hkeeps
    rintro pre o post rfl
    exact inTurn_of_sides hsides
  · intro pre o post _ hc hr
    have hs := ((new config).after pre).submission o
    rw [hr] at hs
    intro w hw
    exact start_ne_of_discarded hc hs hw

/-- Two local opinions by order of start wait in order, and a remote one that
starts before both is rightly discarded. -/
theorem backlog_ordered_late :
    let ours (t : Tick) : Opinion := { origin := .local, start := t }
    let late : Opinion := { origin := .remote, start := 3 }
    let ks : List Call := [.submit (ours 5), .submit (ours 8), .submit late]
    ((new {}).after ks).Ordered ∧
      (((new {}).after (ks.take 2)).submit late).value.1 = .discarded ∧
      ∀ w ∈ ((new {}).after (ks.take 2)).backlog, w.start ≠ late.start := by
  intro ours late ks
  obtain ⟨-, hsides, hdiscard⟩ := backlog_ordered {} ks
  have hks : ∀ x, (ofSide x (submitted ks)).Pairwise (·.start ≤ ·.start) := by
    intro x
    cases x <;> decide
  have hr : (((new {}).after (ks.take 2)).submit late).value.1 = .discarded := by decide
  refine ⟨hsides hks ks (List.prefix_refl ks), hr, ?_⟩
  exact hdiscard (ks.take 2) late [] rfl (hsides hks _ (List.take_prefix 2 ks)) hr

/-- Two local opinions against the order of start wait out of order, and a
remote one is discarded although the second of them starts with it. -/
theorem backlog_unordered :
    let ours (t : Tick) : Opinion := { origin := .local, start := t, stop := some (t + 1) }
    let theirs : Opinion := { origin := .remote, start := 3, stop := some 4 }
    let c := (new {}).after [.submit (ours 5), .submit (ours 3)]
    ¬ c.Ordered ∧ (c.submit theirs).value.1 = .discarded ∧
      ∃ w ∈ c.backlog, w.origin ≠ theirs.origin ∧ w.start = theirs.start := by
  decide

end Lockstep.Coordinator
