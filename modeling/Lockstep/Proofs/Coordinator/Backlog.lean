import Lockstep.Proofs.Coordinator.Run

/-! The backlog as a suffix of what one side has submitted. -/
namespace Lockstep

/-- The opinions of one side, in order. -/
def ofSide (x : Origin) (h : List Opinion) : List Opinion := h.filter (·.origin = x)

variable {x : Origin} {h : List Opinion} {o v w : Opinion}

@[simp] theorem mem_ofSide : v ∈ ofSide x h ↔ v ∈ h ∧ v.origin = x := by
  simp [ofSide]

theorem ofSide_append (x : Origin) (g h : List Opinion) :
    ofSide x (g ++ h) = ofSide x g ++ ofSide x h :=
  List.filter_append ..

theorem ofSide_concat_self (ho : o.origin = x) : ofSide x (h ++ [o]) = ofSide x h ++ [o] := by
  simp [ofSide, ho]

theorem ofSide_concat_other (ho : o.origin ≠ x) : ofSide x (h ++ [o]) = ofSide x h := by
  simp [ofSide, ho]

namespace Coordinator

variable {c c' : Coordinator} {met : Option Opinion} {r : Outcome} {ks : List Call}

/-- Until a desync, the backlog holds the opinions that one side submitted last. -/
def Recent (h : List Opinion) (c : Coordinator) : Prop :=
  c.desynced = false → ∃ x, c.backlog <:+ ofSide x h

theorem mem_of_suffix (hx : c.backlog <:+ ofSide x h) (hv : v ∈ c.backlog) :
    v ∈ h ∧ v.origin = x :=
  mem_ofSide.1 (hx.subset hv)

theorem suffix_concat {l m : List Opinion} (hl : l <:+ m) (o : Opinion) :
    l ++ [o] <:+ m ++ [o] := by
  obtain ⟨t, rfl⟩ := hl
  exact ⟨t, by simp⟩

/-- What is compared with an opinion was submitted by the other side. -/
theorem suffix_other {front : Opinion} {rest old later : List Opinion}
    (hx : c.backlog <:+ ofSide x h) (hb : c.backlog = front :: rest)
    (ho : front.origin ≠ o.origin) (hs : c.backlog = old ++ later) :
    o.origin ≠ x ∧ later <:+ ofSide x h := by
  have hf := mem_of_suffix hx (v := front) (by simp [hb])
  refine ⟨fun he => ho (hf.2.trans he.symm), ?_⟩
  exact (List.suffix_append old later).trans (hs ▸ hx)

theorem desynced_submission (hs : Submission c o met r c') (hd : c'.desynced = false) :
    c.desynced = false := by
  cases hs <;> assumption

theorem desynced_perform {k : Call} (hd : (c.perform k).value.2.desynced = false) :
    c.desynced = false := by
  by_cases hp : k = .processPending
  · subst k
    simpa using hd
  cases ho : k.opinion? with
  | none =>
    obtain ⟨-, -, current, pool, arbiterPlaying, catchUpTarget, hc⟩ :=
      perform_aside (c := c) ho hp
    rw [hc] at hd
    exact hd
  | some o =>
    obtain rfl := eq_submit ho
    exact desynced_submission (c.submission o) hd

/-- What has not desynced in the end had not desynced before. -/
theorem desynced_of_append {ls : List Call} (hd : (c.after (ks ++ ls)).desynced = false) :
    (c.after ks).desynced = false := by
  induction ls using List.reverseRecOn with
  | nil => simpa using hd
  | append_singleton ls k ih =>
    apply ih
    rw [← List.append_assoc, after_append] at hd
    exact desynced_perform hd

theorem recent_submission (hr : Recent h c) (hs : Submission c o met r c') :
    Recent (h ++ [o]) c' := by
  intro hd'
  obtain ⟨x, hx⟩ := hr (desynced_submission hs hd')
  cases hs with
  | ignored pool hd => exact absurd hd (by simpa [desynced] using hd')
  | alone hd hb =>
    refine ⟨o.origin, ?_⟩
    rw [ofSide_concat_self rfl]
    exact List.suffix_append _ _
  | @behind front rest hd hb ho hroom =>
    have hf := mem_of_suffix hx (v := front) (by simp [hb])
    refine ⟨x, ?_⟩
    rw [ofSide_concat_self (ho.symm.trans hf.2)]
    exact suffix_concat (hb ▸ hx) o
  | @crowding front rest pool hd hb ho hfull =>
    have hf := mem_of_suffix hx (v := front) (by simp [hb])
    refine ⟨x, ?_⟩
    rw [ofSide_concat_self (ho.symm.trans hf.2)]
    exact suffix_concat ((List.suffix_cons front rest).trans (hb ▸ hx)) o
  | overtaking pool hd hb ho hlt =>
    refine ⟨o.origin, ?_⟩
    rw [ofSide_concat_self rfl]
    exact List.suffix_append _ _
  | stale pool hd hb ho hs hlt hgt =>
    obtain ⟨hne, hl⟩ := suffix_other hx hb ho hs
    refine ⟨x, ?_⟩
    rwa [ofSide_concat_other hne]
  | @agreeing front w rest old later pool hd hb ho hs hlt heq hcmp =>
    obtain ⟨hne, hl⟩ := suffix_other hx hb ho hs
    refine ⟨x, ?_⟩
    rw [ofSide_concat_other hne]
    exact (List.suffix_cons w later).trans hl
  | disagreeing => cases hd'

/-- What a submitted opinion is compared with has been submitted by the other
side, for the same first tick. -/
theorem counterpart_submission (hr : Recent h c) (hs : Submission c o (some w) r c') :
    w ∈ h ∧ w.origin ≠ o.origin ∧ w.start = o.start := by
  obtain ⟨front, rest, old, later, hd, hb, ho, hsplit, heq, -⟩ := met_submission hs
  obtain ⟨x, hx⟩ := hr hd
  obtain ⟨hne, hl⟩ := suffix_other hx hb ho hsplit
  have hw := mem_ofSide.1 (hl.subset List.mem_cons_self)
  exact ⟨hw.1, fun he => hne (he.symm.trans hw.2), heq⟩

/-- What depends only on the backlog, on the settings and on whether the sides
have desynced holds after a run if submissions keep it. -/
theorem backlog_run {I : List Opinion → Coordinator → Prop} {config : Config}
    (start : I [] (new config))
    (submit : ∀ {h c o met r c'}, I h c → Submission c o met r c' → I (h ++ [o]) c')
    (frame : ∀ {h c c'}, c'.desynced = c.desynced → c'.backlog = c.backlog →
      c'.config = c.config → I h c → I h c')
    (ks : List Call) : I (submitted ks) ((new config).after ks) := by
  refine run_induction (I := fun h _ _ c => I h c) start submit ?_ ?_ ks
  · intro h ms rs c hi
    exact frame (desynced_processPending c) (backlog_processPending c)
      (config_processPending c) hi
  · intro h ms rs c _ _ _ _ hi
    exact frame (c := c) rfl rfl rfl hi

theorem recent_run (config : Config) (ks : List Call) :
    Recent (submitted ks) ((new config).after ks) := by
  apply backlog_run
  · intro _
    exact ⟨.local, List.nil_suffix⟩
  · exact recent_submission
  · intro h c c' hd hb _ hr hd'
    rw [hb]
    exact hr (hd.symm.trans hd')

theorem counterpart_run {config : Config}
    (hmet : ((new config).after ks).counterpart? o = some w) :
    w ∈ submitted ks ∧ w.origin ≠ o.origin ∧ w.start = o.start := by
  have hs := ((new config).after ks).submission o
  rw [hmet] at hs
  exact counterpart_submission (recent_run config ks) hs

end Coordinator

end Lockstep
