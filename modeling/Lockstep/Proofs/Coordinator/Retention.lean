import Lockstep.Proofs.Coordinator.Order

/-! What the backlog holds on to in every state of a run: the latest opinions of
one side, as many as the window has room for. -/
namespace Lockstep.Coordinator

variable {c : Coordinator} {k : Call} {ks : List Call} {o front : Opinion} {rest : List Opinion}

/-- The part of a run that comes before the call which finds the sides to
disagree; all of it, if none does. -/
def untilDesync (c : Coordinator) : List Call → List Call
  | [] => []
  | k :: ks =>
    if (c.perform k).value.2.desynced then [] else k :: untilDesync (c.perform k).value.2 ks

theorem untilDesync_eq_self (hd : (c.after ks).desynced = false) : c.untilDesync ks = ks := by
  induction ks generalizing c with
  | nil => rfl
  | cons k ks ih =>
    have hsplit : (c.after ([k] ++ ks)).desynced = false := hd
    have hk : (c.perform k).value.2.desynced = false := desynced_of_append hsplit
    simp only [untilDesync, hk, Bool.false_eq_true, if_false]
    exact congrArg (k :: ·) (ih hd)

/-- What comes after a desync adds nothing. -/
theorem untilDesync_concat (hd : (c.after (ks ++ [k])).desynced = true) :
    c.untilDesync (ks ++ [k]) = c.untilDesync ks := by
  induction ks generalizing c with
  | nil =>
    have hk : (c.perform k).value.2.desynced = true := hd
    simp [untilDesync, hk]
  | cons j ks ih =>
    simp only [List.cons_append, untilDesync]
    split
    · rfl
    · exact congrArg (j :: ·) (ih hd)

/-- A desync takes opinions from the front of the backlog, and so does nothing
that is called later. -/
theorem suffix_of_desynced (hd : (c.perform k).value.2.desynced = true) :
    (c.perform k).value.2.backlog <:+ c.backlog := by
  cases ho : k.opinion? with
  | none => exact ⟨[], backlog_perform ho⟩
  | some o =>
    obtain rfl := eq_submit ho
    rw [perform_submit] at hd ⊢
    have hs := c.submission o
    generalize c.counterpart? o = met at hs
    generalize (c.submit o).value = x at hs hd ⊢
    obtain ⟨r, c'⟩ := x
    cases hs with
    | ignored => exact List.suffix_refl _
    | @disagreeing _ w _ old later _ _ _ _ _ hsplit =>
      refine ⟨old ++ [w], ?_⟩
      rw [hsplit, List.append_assoc]
      rfl
    | _ => simp_all [desynced]

theorem recent_untilDesync (config : Config) (ks : List Call) :
    ∃ x, ((new config).after ks).backlog <:+
      ofSide x (submitted ((new config).untilDesync ks)) := by
  induction ks using List.reverseRecOn with
  | nil => exact ⟨.local, List.nil_suffix⟩
  | append_singleton ks k ih =>
    cases hd : ((new config).after (ks ++ [k])).desynced with
    | false =>
      rw [untilDesync_eq_self hd]
      exact recent_run config (ks ++ [k]) hd
    | true =>
      obtain ⟨x, hx⟩ := ih
      rw [untilDesync_concat hd]
      rw [after_append] at hd ⊢
      exact ⟨x, (suffix_of_desynced hd).trans hx⟩

/-- An opinion of the side that waits goes to the end of the backlog. If the
backlog is full, the oldest one makes room for it. -/
theorem submit_behind (hd : c.desynced = false) (hb : c.backlog = front :: rest)
    (ho : front.origin = o.origin) :
    ∃ pool, (c.submit o).value = (.queued, { c with
      backlog := (if c.config.maxBacklog ≤ c.backlog.length then rest else c.backlog) ++ [o]
      pool }) := by
  have hs := c.submission o
  generalize c.counterpart? o = met at hs
  generalize (c.submit o).value = x at hs ⊢
  obtain ⟨r, c'⟩ := x
  cases hs with
  | ignored pool hd' => simp [hd] at hd'
  | alone hd' hb' => simp [hb] at hb'
  | behind hd' hb' ho' hroom =>
    refine ⟨c.pool, ?_⟩
    rw [hb', if_neg (by simpa using hroom)]
  | crowding pool hd' hb' ho' hfull =>
    refine ⟨pool, ?_⟩
    rw [hb] at hb' ⊢
    cases hb'
    exact congrArg (fun l => (Outcome.queued, { c with backlog := l ++ [o], pool }))
      (if_pos hfull).symm
  | overtaking pool hd' hb' ho' => simp_all
  | stale pool hd' hb' ho' => simp_all
  | agreeing pool hd' hb' ho' => simp_all
  | disagreeing pool hd' hb' ho' => simp_all

/-- In every state of a run the backlog holds the opinions that one side
submitted last before the desync, if there is one, as they were submitted and
in that order. There are no more of them than may wait, save that a single one
always may. Of a full backlog, one more opinion of that side removes the oldest,
and no other. -/
theorem backlog_retains (config : Config) (ks : List Call) :
    let c := (new config).after ks
    (∃ x, c.backlog <:+ ofSide x (submitted ((new config).untilDesync ks))) ∧
      c.backlog.length ≤ max 1 config.maxBacklog ∧
      (config.maxBacklog < c.backlog.length →
        config.maxBacklog = 0 ∧ c.backlog.length = 1) ∧
      ∀ front rest o, c.desynced = false → c.backlog = front :: rest →
        front.origin = o.origin →
        ∃ pool, (c.submit o).value = (.queued, { c with
          backlog :=
            (if c.backlog.length = max 1 config.maxBacklog then rest else c.backlog) ++ [o]
          pool }) := by
  intro c
  have hconfig : c.config = config := config_run config ks
  have hlength : c.backlog.length ≤ max 1 config.maxBacklog := by
    rw [← hconfig]
    exact length_run config ks
  refine ⟨recent_untilDesync config ks, hlength, by omega, ?_⟩
  intro front rest o hd hb ho
  have hfull : config.maxBacklog ≤ c.backlog.length ↔
      c.backlog.length = max 1 config.maxBacklog := by
    have hpos : 1 ≤ c.backlog.length := by simp [hb]
    omega
  obtain ⟨pool, hsubmit⟩ := submit_behind hd hb ho
  refine ⟨pool, ?_⟩
  rw [hsubmit, hconfig]
  simp only [hfull]

/-- Two opinions may wait. The first of three local ones has to go, the remote
one takes the second with it when it disagrees, and what is submitted after that
is no longer taken in. -/
theorem backlog_retains_latest :
    let ours (t : Tick) : Opinion := { origin := .local, start := t, world := [1] }
    let theirs : Opinion := { origin := .remote, start := 3 }
    let config : Config := { maxBacklog := 2 }
    let ks : List Call :=
      [.submit (ours 5), .submit (ours 3), .submit (ours 8), .submit theirs, .submit (ours 9)]
    (∃ pool, (((new config).after (ks.take 2)).submit (ours 8)).value =
        (.queued, { (new config).after (ks.take 2) with backlog := [ours 3, ours 8], pool })) ∧
      ((new config).after ks).desynced = true ∧
      ((new config).after ks).backlog = [ours 8] ∧
      ∃ x, ((new config).after ks).backlog <:+
        ofSide x (submitted ((new config).untilDesync ks)) := by
  intro ours theirs config ks
  obtain ⟨-, -, -, hcrowd⟩ := backlog_retains config (ks.take 2)
  refine ⟨?_, by decide, by decide, (backlog_retains config ks).1⟩
  exact hcrowd (ours 5) [ours 3] (ours 8) (by decide) (by decide) rfl

end Lockstep.Coordinator
