import Lockstep.Proofs.Coordinator.Progress
import Lockstep.Proofs.Coordinator.Survival

/-! What waits while a local stream and a remote one come in, of which the
remote one may repeat a start. -/
namespace Lockstep

/-- The local opinions start at increasing ticks, the remote ones at ticks that
do not decrease, and neither are more than `n`. -/
structure Retransmitted (n : Nat) (h : List Opinion) : Prop where
  local_lt : LocalOrder h
  remote_le : (ofSide .remote h).Pairwise (·.start ≤ ·.start)
  length_le : ∀ x, (ofSide x h).length ≤ n

/-- The other side has come as far as this opinion. -/
def Overtaken (h : List Opinion) (v : Opinion) : Prop :=
  ∃ u ∈ h, u.origin ≠ v.origin ∧ v.start ≤ u.start

variable {n : Nat} {x : Origin} {h g : List Opinion} {o u v w : Opinion}

theorem retransmitted_left (hr : Retransmitted n (h ++ g)) : Retransmitted n h := by
  refine ⟨Coordinator.localOrder_left hr.local_lt, ?_, fun x => ?_⟩
  · have hle := hr.remote_le
    rw [ofSide_append] at hle
    exact (List.pairwise_append.1 hle).1
  · have hlen := hr.length_le x
    rw [ofSide_append, List.length_append] at hlen
    omega

theorem Retransmitted.pairwise_le (hr : Retransmitted n h) (x : Origin) :
    (ofSide x h).Pairwise (·.start ≤ ·.start) := by
  cases x with
  | «local» => exact hr.local_lt.imp UInt32.le_of_lt
  | remote => exact hr.remote_le

/-- A new opinion starts no earlier than all of its side. -/
theorem Retransmitted.le_new (hr : Retransmitted n (h ++ [o])) (hv : v ∈ h)
    (ho : v.origin = o.origin) : v.start ≤ o.start := by
  have hle := hr.pairwise_le o.origin
  rw [ofSide_concat_self rfl] at hle
  exact (List.pairwise_append.1 hle).2.2 v (mem_ofSide.2 ⟨hv, ho⟩) o (List.mem_singleton.2 rfl)

theorem Retransmitted.lt_new (hr : Retransmitted n (h ++ [o])) (hv : v ∈ h)
    (ho : v.origin = o.origin) (hol : o.origin = .local) : v.start < o.start :=
  Coordinator.lt_of_localOrder hr.local_lt hol (mem_ofSide.2 ⟨hv, ho.trans hol⟩)

theorem Overtaken.mono (hv : Overtaken h v) : Overtaken (h ++ g) v := by
  obtain ⟨u, hu, hne, hle⟩ := hv
  exact ⟨u, List.mem_append_left _ hu, hne, hle⟩

/-- What has been overtaken starts no later than a new opinion of the other side. -/
theorem Overtaken.le_new (hr : Retransmitted n (h ++ [o])) (hv : Overtaken h v)
    (ho : v.origin ≠ o.origin) :
    v.start ≤ o.start ∧ (o.origin = .local → v.start < o.start) := by
  obtain ⟨u, hu, hne, hle⟩ := hv
  have huo : u.origin = o.origin := Origin.eq_of_ne_of_ne hne (Ne.symm ho)
  exact ⟨UInt32.le_trans hle (hr.le_new hu huo),
    fun hol => UInt32.lt_of_le_of_lt hle (hr.lt_new hu huo hol)⟩

namespace Coordinator

variable {c c' : Coordinator} {met : Option Opinion} {r : Outcome} {ks : List Call}
  {keep old : List Opinion}

/-- The backlog holds the end of one side's stream. All else has been overtaken, and what
waits has not, but for remote opinions that repeat a compared tick. -/
structure Awaiting (x : Origin) (h : List Opinion) (c : Coordinator) : Prop where
  split : ∃ gone, ofSide x h = gone ++ c.backlog ∧ ∀ v ∈ gone, Overtaken h v
  other : ∀ v ∈ h, v.origin ≠ x → Overtaken h v
  late : ∀ v ∈ c.backlog, ∀ u ∈ h, u.origin ≠ x →
    u.start ≤ v.start ∧ (x = .local → u.start < v.start)

theorem Awaiting.suffix (ha : Awaiting x h c) : c.backlog <:+ ofSide x h := by
  obtain ⟨gone, hgone, -⟩ := ha.split
  exact ⟨gone, hgone.symm⟩

theorem Awaiting.mem_or_overtaken (ha : Awaiting x h c) (hv : v ∈ h) :
    (v ∈ c.backlog ∧ v.origin = x) ∨ Overtaken h v := by
  by_cases hvx : v.origin = x
  · obtain ⟨gone, hgone, hover⟩ := ha.split
    have hmem := mem_ofSide.2 ⟨hv, hvx⟩
    rw [hgone] at hmem
    rcases List.mem_append.1 hmem with hmem | hmem
    · exact Or.inr (hover v hmem)
    · exact Or.inl ⟨hmem, hvx⟩
  · exact Or.inr (ha.other v hv hvx)

/-- An opinion that finds nothing of the other side to wait for waits alone. -/
theorem awaiting_alone (hr : Retransmitted n (h ++ [o])) (hb : c'.backlog = [o])
    (hsame : ∀ v ∈ h, v.origin = o.origin → Overtaken h v)
    (hothers : ∀ v ∈ h, v.origin ≠ o.origin → Overtaken h v ∨ v.start < o.start) :
    Awaiting o.origin (h ++ [o]) c' := by
  refine ⟨⟨ofSide o.origin h, by rw [hb, ofSide_concat_self rfl], ?_⟩, ?_, ?_⟩
  · intro v hv
    obtain ⟨hv, hvo⟩ := mem_ofSide.1 hv
    exact (hsame v hv hvo).mono
  · intro v hv hvo
    rcases List.mem_append.1 hv with hv | hv
    · rcases hothers v hv hvo with hover | hlt
      · exact hover.mono
      · exact ⟨o, by simp, Ne.symm hvo, UInt32.le_of_lt hlt⟩
    · exact absurd (congrArg Opinion.origin (List.mem_singleton.1 hv)) hvo
  · intro v hv u hu huo
    rw [hb, List.mem_singleton] at hv
    subst v
    rcases List.mem_append.1 hu with hu | hu
    · rcases hothers u hu huo with hover | hlt
      · exact hover.le_new hr huo
      · exact ⟨UInt32.le_of_lt hlt, fun _ => hlt⟩
    · exact absurd (congrArg Opinion.origin (List.mem_singleton.1 hu)) huo

/-- An opinion of the same side waits behind the others. -/
theorem awaiting_push (hr : Retransmitted n (h ++ [o])) (ha : Awaiting x h c)
    (ho : o.origin = x) (hne : c.backlog ≠ []) (hb : c'.backlog = c.backlog ++ [o]) :
    Awaiting x (h ++ [o]) c' := by
  obtain ⟨gone, hgone, hover⟩ := ha.split
  have hold : ∀ u ∈ h ++ [o], u.origin ≠ x → u ∈ h := by
    intro u hu hux
    rcases List.mem_append.1 hu with hu | hu
    · exact hu
    · exact absurd (List.mem_singleton.1 hu ▸ ho) hux
  refine ⟨⟨gone, ?_, fun v hv => (hover v hv).mono⟩, ?_, ?_⟩
  · rw [ofSide_concat_self ho, hgone, hb, List.append_assoc]
  · intro v hv hvx
    exact (ha.other v (hold v hv hvx) hvx).mono
  · intro v hv u hu hux
    rw [hb] at hv
    rcases List.mem_append.1 hv with hv | hv
    · exact ha.late v hv u (hold u hu hux) hux
    · obtain ⟨front, hf⟩ := List.exists_mem_of_ne_nil _ hne
      obtain ⟨hfh, hfx⟩ := mem_of_suffix ha.suffix hf
      obtain ⟨hle, hlt⟩ := ha.late front hf u (hold u hu hux) hux
      have hfo := hr.le_new hfh (hfx.trans ho.symm)
      rw [List.mem_singleton.1 hv]
      exact ⟨UInt32.le_trans hle hfo, fun hx => UInt32.lt_of_lt_of_le (hlt hx) hfo⟩

/-- An opinion of the other side leaves those waiting that it does not overtake. -/
theorem awaiting_drop (ha : Awaiting x h c) (ho : o.origin ≠ x)
    (hsplit : c.backlog = old ++ keep) (hb : c'.backlog = keep)
    (hold : ∀ v ∈ old, v.start ≤ o.start) (hw : w ∈ c.backlog) (hle : o.start ≤ w.start)
    (hkeep : ∀ v ∈ keep, o.start ≤ v.start ∧ (x = .local → o.start < v.start)) :
    Awaiting x (h ++ [o]) c' := by
  obtain ⟨gone, hgone, hover⟩ := ha.split
  have hside : ∀ v ∈ c.backlog, v ∈ h ∧ v.origin = x := fun v hv => mem_of_suffix ha.suffix hv
  refine ⟨⟨gone ++ old, ?_, ?_⟩, ?_, ?_⟩
  · rw [ofSide_concat_other ho, hgone, hsplit, hb, List.append_assoc]
  · intro v hv
    rcases List.mem_append.1 hv with hv | hv
    · exact (hover v hv).mono
    · have hvx := (hside v (by simp [hsplit, hv])).2
      exact ⟨o, by simp, hvx ▸ ho, hold v hv⟩
  · intro v hv hvx
    rcases List.mem_append.1 hv with hv | hv
    · exact (ha.other v hv hvx).mono
    · obtain ⟨hwh, hwx⟩ := hside w hw
      rw [List.mem_singleton.1 hv]
      exact ⟨w, List.mem_append_left _ hwh, hwx ▸ Ne.symm ho, hle⟩
  · intro v hv u hu hux
    rw [hb] at hv
    rcases List.mem_append.1 hu with hu | hu
    · exact ha.late v (by simp [hsplit, hv]) u hu hux
    · rw [List.mem_singleton.1 hu]
      exact hkeep v hv

theorem pairwise_suffix (hr : Retransmitted n h) (ha : Awaiting x h c) :
    c.backlog.Pairwise (·.start ≤ ·.start) :=
  (hr.pairwise_le x).sublist ha.suffix.sublist

theorem origin_of_front {front : Opinion} {rest : List Opinion} (ha : Awaiting x h c)
    (hb : c.backlog = front :: rest) : front.origin = x :=
  (mem_of_suffix ha.suffix (by simp [hb])).2

theorem awaiting_submission (hr : Retransmitted c.config.maxBacklog (h ++ [o]))
    (ha : Awaiting x h c) (hs : Submission c o met r c') (hd : c'.desynced = false) :
    ∃ y, Awaiting y (h ++ [o]) c' := by
  have hsorted := pairwise_suffix (retransmitted_left hr) ha
  cases hs with
  | ignored pool hdes => exact absurd (hdes.symm.trans hd) (by decide)
  | alone _ hb =>
    have hover : ∀ v ∈ h, Overtaken h v := by
      intro v hv
      rcases ha.mem_or_overtaken hv with ⟨hvb, -⟩ | hover
      · simp [hb] at hvb
      · exact hover
    exact ⟨o.origin, awaiting_alone hr rfl (fun v hv _ => hover v hv)
      fun v hv _ => Or.inl (hover v hv)⟩
  | @behind front rest _ hb ho _ =>
    have hox : o.origin = x := ho.symm.trans (origin_of_front ha hb)
    exact ⟨x, awaiting_push hr ha hox (by simp [hb]) (by simp [hb])⟩
  | @crowding front rest pool _ hb ho hfull =>
    -- all that have come on this side fit into the backlog
    have hox : o.origin = x := ho.symm.trans (origin_of_front ha hb)
    have hlen := hr.length_le x
    have hle := ha.suffix.length_le
    rw [ofSide_concat_self hox, List.length_append, List.length_singleton] at hlen
    rw [hb, List.length_cons] at hle
    omega
  | @overtaking front rest pool _ hb ho hlt =>
    have hox : o.origin ≠ x := fun hox => ho ((origin_of_front ha hb).trans hox.symm)
    refine ⟨o.origin, awaiting_alone hr rfl ?_ ?_⟩
    · intro v hv hvo
      exact ha.other v hv (hvo ▸ hox)
    · intro v hv hvo
      rcases ha.mem_or_overtaken hv with ⟨hvb, -⟩ | hover
      · exact Or.inr (hlt v hvb)
      · exact Or.inl hover
  | @stale front w rest old later pool _ hb ho hsplit hlt hgt =>
    have hox : o.origin ≠ x := fun hox => ho ((origin_of_front ha hb).trans hox.symm)
    rw [hsplit] at hsorted
    refine ⟨x, awaiting_drop ha hox hsplit rfl (fun v hv => UInt32.le_of_lt (hlt v hv))
      (w := w) (by simp [hsplit]) (UInt32.le_of_lt hgt) ?_⟩
    intro v hv
    have hov : o.start < v.start := by
      rcases List.mem_cons.1 hv with rfl | hv
      · exact hgt
      · have hwv := (List.pairwise_cons.1 (List.pairwise_append.1 hsorted).2.1).1 v hv
        exact UInt32.lt_of_lt_of_le hgt hwv
    exact ⟨UInt32.le_of_lt hov, fun _ => hov⟩
  | @agreeing front w rest old later pool _ hb ho hsplit hlt heq hcmp =>
    have hox : o.origin ≠ x := fun hox => ho ((origin_of_front ha hb).trans hox.symm)
    have hsplit' : c.backlog = (old ++ [w]) ++ later := by simp [hsplit]
    refine ⟨x, awaiting_drop ha hox hsplit' rfl ?_ (w := w) (by simp [hsplit])
      (heq ▸ UInt32.le_refl _) ?_⟩
    · intro v hv
      rcases List.mem_append.1 hv with hv | hv
      · exact UInt32.le_of_lt (hlt v hv)
      · rw [List.mem_singleton.1 hv, heq]
        exact UInt32.le_refl _
    · intro v hv
      rw [← heq]
      constructor
      · rw [hsplit] at hsorted
        exact (List.pairwise_cons.1 (List.pairwise_append.1 hsorted).2.1).1 v hv
      · rintro rfl
        have hp := (retransmitted_left hr).local_lt.sublist ha.suffix.sublist
        rw [hsplit] at hp
        exact (List.pairwise_cons.1 (List.pairwise_append.1 hp).2.1).1 v hv
  | disagreeing => cases hd

theorem awaiting_run (config : Config) (hr : Retransmitted config.maxBacklog (submitted ks))
    (hd : ((new config).after ks).desynced = false) :
    ∃ x, Awaiting x (submitted ks) ((new config).after ks) := by
  have hrun : ((new config).after ks).config = config ∧
      (Retransmitted config.maxBacklog (submitted ks) →
        ((new config).after ks).desynced = false →
          ∃ x, Awaiting x (submitted ks) ((new config).after ks)) := by
    apply backlog_run (I := fun h c => c.config = config ∧
      (Retransmitted config.maxBacklog h → c.desynced = false → ∃ x, Awaiting x h c))
    · refine ⟨rfl, fun _ _ => ⟨.local, ⟨[], rfl, ?_⟩, ?_, ?_⟩⟩ <;> simp [new]
    · rintro h c o met r c' ⟨hconfig, ha⟩ hs
      refine ⟨(config_submission hs).trans hconfig, fun hr hd => ?_⟩
      obtain ⟨x, hx⟩ := ha (retransmitted_left hr) (desynced_submission hs hd)
      exact awaiting_submission (hconfig ▸ hr) hx hs hd
    · rintro h c c' hd hb hconfig ⟨hc, ha⟩
      refine ⟨hconfig.trans hc, fun hr hd' => ?_⟩
      obtain ⟨x, hx⟩ := ha hr (hd.symm.trans hd')
      exact ⟨x, { hx with
        split := hb ▸ hx.split
        late := hb ▸ hx.late }⟩
  exact hrun.2 hr hd

/-- Where nothing is compared, nothing of the other side that waits starts with
the new opinion. -/
theorem start_ne_of_unmet (hsorted : c.backlog.Pairwise (·.start ≤ ·.start))
    (hx : c.backlog <:+ ofSide x h) (hd : c.desynced = false) (hs : Submission c o none r c')
    (hv : v ∈ c.backlog) (hvo : v.origin ≠ o.origin) : v.start ≠ o.start := by
  have hside : ∀ u ∈ c.backlog, u.origin = v.origin := by
    intro u hu
    exact (mem_of_suffix hx hu).2.trans (mem_of_suffix hx hv).2.symm
  cases hs with
  | ignored pool hdes => simp [hd] at hdes
  | alone _ hb => simp [hb] at hv
  | behind _ hb ho _ => exact absurd ((hside _ (by simp [hb])).symm.trans ho) hvo
  | crowding pool _ hb ho _ => exact absurd ((hside _ (by simp [hb])).symm.trans ho) hvo
  | overtaking pool _ hb ho hlt => exact UInt32.ne_of_lt (hlt v hv)
  | @stale front w rest old later pool _ hb ho hsplit hlt hgt =>
    rw [hsplit] at hv hsorted
    rcases List.mem_append.1 hv with hv | hv
    · exact UInt32.ne_of_lt (hlt v hv)
    · rcases List.mem_cons.1 hv with rfl | hv
      · exact (UInt32.ne_of_lt hgt).symm
      · have hwv := (List.pairwise_cons.1 (List.pairwise_append.1 hsorted).2.1).1 v hv
        exact (UInt32.ne_of_lt (UInt32.lt_of_lt_of_le hgt hwv)).symm

/-- An opinion is compared with the first of the other side that starts with it,
if no one of its own side can have been. -/
theorem met_eq_find? (hr : Retransmitted n (h ++ [o])) (ha : Awaiting x h c)
    (hd : c.desynced = false) (hs : Submission c o met r c')
    (hnew : ∀ v ∈ h, v.origin ≠ o.origin → v.start = o.start → ¬ Overtaken h v) :
    met = (ofSide o.origin.invert h).find? (·.start = o.start) := by
  have hr' := retransmitted_left hr
  cases met with
  | none =>
    refine (List.find?_eq_none.2 fun v hv => ?_).symm
    obtain ⟨hv, hvo⟩ := mem_ofSide.1 hv
    have hne : v.origin ≠ o.origin := by
      rw [hvo]
      cases o.origin <;> decide
    rw [decide_eq_true_eq]
    intro heq
    rcases ha.mem_or_overtaken hv with ⟨hvb, -⟩ | hover
    · exact start_ne_of_unmet (pairwise_suffix hr' ha) ha.suffix hd hs hvb hne heq
    · exact hnew v hv hne heq hover
  | some w =>
    obtain ⟨front, rest, old, later, -, hb, ho, hsplit, hlt, heq⟩ :
        ∃ front rest old later, c.desynced = false ∧ c.backlog = front :: rest ∧
          front.origin ≠ o.origin ∧ c.backlog = old ++ w :: later ∧
          (∀ v ∈ old, v.start < o.start) ∧ w.start = o.start := by
      cases hs with
      | agreeing pool _ hb ho hsplit hlt heq => exact ⟨_, _, _, _, hd, hb, ho, hsplit, hlt, heq⟩
      | disagreeing pool _ hb ho hsplit hlt heq => exact ⟨_, _, _, _, hd, hb, ho, hsplit, hlt, heq⟩
    obtain ⟨gone, hgone, hover⟩ := ha.split
    have hox : o.origin ≠ x := fun hox => ho ((origin_of_front ha hb).trans hox.symm)
    have hinv : o.origin.invert = x := by
      cases x <;> cases horigin : o.origin <;> simp_all [Origin.invert]
    rw [hinv, hgone, hsplit]
    refine (List.find?_eq_some_iff_append.2 ⟨by simpa using heq, gone ++ old, later, ?_, ?_⟩).symm
    · simp
    · intro v hv
      rw [Bool.not_eq_true', decide_eq_false_iff_not]
      rcases List.mem_append.1 hv with hv | hv
      · have hvx := mem_ofSide.1 (hgone ▸ List.mem_append_left _ hv)
        exact fun hvo => hnew v hvx.1 (hvx.2 ▸ Ne.symm hox) hvo (hover v hv)
      · exact UInt32.ne_of_lt (hlt v hv)

end Coordinator

end Lockstep
