import Lockstep.Proofs.Coordinator.Verdict

/-! Which opinions still wait when both sides submit theirs by increasing start. -/
namespace Lockstep

/-- How many opinions of one side can wait: a first one always finds room. -/
def Config.window (config : Config) : Nat := max 1 config.maxBacklog

/-- Each side submits its opinions by strictly increasing start. -/
def Streams (h : List Opinion) : Prop := ∀ x, (ofSide x h).Pairwise (·.start < ·.start)

/-- How many opinions of the same side start after `w`. -/
def behind (h : List Opinion) (w : Opinion) : Nat :=
  (ofSide w.origin h).countP (w.start < ·.start)

/-- The opinion has not been overtaken: neither by `n` of its own side nor by
one of the other side that starts no earlier. -/
structure Waits (n : Nat) (h : List Opinion) (w : Opinion) : Prop where
  mem : w ∈ h
  room : behind h w < n
  ahead : ∀ v ∈ h, v.origin ≠ w.origin → v.start < w.start

variable {x : Origin} {g h : List Opinion} {n : Nat} {o v w : Opinion}

theorem streams_left (hst : Streams (g ++ h)) : Streams g := by
  intro x
  have hx := hst x
  rw [ofSide_append] at hx
  exact (List.pairwise_append.1 hx).1

/-- A new opinion starts after all that its side has submitted. -/
theorem lt_of_streams (hst : Streams (h ++ [o])) (hv : v ∈ h) (ho : v.origin = o.origin) :
    v.start < o.start := by
  have hx := hst o.origin
  rw [ofSide_concat_self rfl] at hx
  exact (List.pairwise_append.1 hx).2.2 v (mem_ofSide.2 ⟨hv, ho⟩) o (List.mem_singleton.2 rfl)

theorem eq_of_pairwise_start {α : Type} {start : α → Tick} {l : List α} {a b : α}
    (hl : l.Pairwise (start · < start ·)) (ha : a ∈ l) (hb : b ∈ l) (he : start a = start b) :
    a = b := by
  have hnodup : (l.map start).Nodup := (List.pairwise_map.2 hl).imp UInt32.ne_of_lt
  exact List.inj_on_of_nodup_map hnodup ha hb he

/-- The start tells the opinions of one side apart. -/
theorem eq_of_mem_ofSide (hst : Streams h) (hv : v ∈ ofSide x h) (hw : w ∈ ofSide x h)
    (hs : v.start = w.start) : v = w :=
  eq_of_pairwise_start (hst x) hv hw hs

/-- What starts later in a stream stands later in it. -/
theorem behind_eq (hst : Streams h) {s t : List Opinion} (he : ofSide w.origin h = s ++ w :: t) :
    behind h w = t.length := by
  have hx := hst w.origin
  rw [he] at hx
  obtain ⟨-, ht, hs⟩ := List.pairwise_append.1 hx
  have hzero : s.countP (w.start < ·.start) = 0 := by
    rw [List.countP_eq_zero]
    intro v hv
    have hlt := hs v hv w List.mem_cons_self
    simpa using UInt32.le_of_lt hlt
  have hall : t.countP (w.start < ·.start) = t.length := by
    rw [List.countP_eq_length]
    intro v hv
    simpa using (List.pairwise_cons.1 ht).1 v hv
  rw [behind, he, List.countP_append, List.countP_cons, hzero, hall]
  simp

theorem behind_concat_same (hst : Streams (h ++ [o])) (hw : w ∈ h) (ho : o.origin = w.origin) :
    behind (h ++ [o]) w = behind h w + 1 := by
  have hlt := lt_of_streams hst hw ho.symm
  rw [behind, ofSide_concat_self ho, List.countP_append]
  simp [behind, hlt]

theorem behind_concat_other (ho : o.origin ≠ w.origin) : behind (h ++ [o]) w = behind h w := by
  rw [behind, ofSide_concat_other ho, behind]

/-- Every stream has a newest opinion. -/
theorem exists_newest (hst : Streams h) (hv : v ∈ h) :
    ∃ z ∈ h, z.origin = v.origin ∧ v.start ≤ z.start ∧ behind h z = 0 := by
  have hne : ofSide v.origin h ≠ [] := List.ne_nil_of_mem (mem_ofSide.2 ⟨hv, rfl⟩)
  obtain ⟨s, z, he⟩ := (List.eq_nil_or_concat' (ofSide v.origin h)).resolve_left hne
  have hz : z ∈ h ∧ z.origin = v.origin := mem_ofSide.1 (by simp [he])
  refine ⟨z, hz.1, hz.2, ?_, ?_⟩
  · have hx := hst v.origin
    have hv := mem_ofSide.2 ⟨hv, rfl⟩
    rw [he] at hx hv
    rcases List.mem_append.1 hv with hv | hv
    · exact UInt32.le_of_lt ((List.pairwise_append.1 hx).2.2 v hv z List.mem_cons_self)
    · rw [List.mem_singleton.1 hv]
      exact UInt32.le_refl _
  · exact behind_eq hst (hz.2 ▸ he)

theorem not_mem_of_streams (hst : Streams (h ++ [o])) : o ∉ h := by
  intro ho
  exact UInt32.lt_irrefl _ (lt_of_streams hst ho rfl)

theorem waits_concat_self (hst : Streams (h ++ [o])) (hn : 0 < n)
    (ha : ∀ v ∈ h, v.origin ≠ o.origin → v.start < o.start) : Waits n (h ++ [o]) o := by
  refine ⟨by simp, ?_, ?_⟩
  · have he : ofSide o.origin (h ++ [o]) = ofSide o.origin h ++ o :: [] := ofSide_concat_self rfl
    rw [behind_eq hst he]
    exact hn
  · intro v hv ho
    rcases List.mem_append.1 hv with hv | hv
    · exact ha v hv ho
    · exact absurd (congrArg Opinion.origin (List.mem_singleton.1 hv)) ho

theorem waits_concat_same (hst : Streams (h ++ [o])) (hw : w ∈ h) (ho : o.origin = w.origin) :
    Waits n (h ++ [o]) w ↔ Waits n h w ∧ behind h w + 1 < n := by
  constructor
  · intro hwait
    have hroom := hwait.room
    rw [behind_concat_same hst hw ho] at hroom
    exact ⟨⟨hw, by omega, fun v hv => hwait.ahead v (List.mem_append_left _ hv)⟩, hroom⟩
  · rintro ⟨hwait, hroom⟩
    refine ⟨List.mem_append_left _ hw, ?_, ?_⟩
    · rw [behind_concat_same hst hw ho]
      exact hroom
    · intro v hv hvo
      rcases List.mem_append.1 hv with hv | hv
      · exact hwait.ahead v hv hvo
      · exact absurd (List.mem_singleton.1 hv ▸ ho) hvo

theorem waits_concat_other (hw : w ∈ h) (ho : o.origin ≠ w.origin) :
    Waits n (h ++ [o]) w ↔ Waits n h w ∧ o.start < w.start := by
  constructor
  · intro hwait
    have hroom := hwait.room
    rw [behind_concat_other ho] at hroom
    exact ⟨⟨hw, hroom, fun v hv => hwait.ahead v (List.mem_append_left _ hv)⟩,
      hwait.ahead o (by simp) ho⟩
  · rintro ⟨hwait, hlt⟩
    refine ⟨List.mem_append_left _ hw, ?_, ?_⟩
    · rw [behind_concat_other ho]
      exact hwait.room
    · intro v hv hvo
      rcases List.mem_append.1 hv with hv | hv
      · exact hwait.ahead v hv hvo
      · rw [List.mem_singleton.1 hv]
        exact hlt

/-- What waits after a submission is the new opinion or has waited before. -/
theorem waits_of_concat (hst : Streams (h ++ [o])) (hwait : Waits n (h ++ [o]) w) (hne : w ≠ o) :
    Waits n h w := by
  have hw : w ∈ h := by
    rcases List.mem_append.1 hwait.mem with hw | hw
    · exact hw
    · exact absurd (List.mem_singleton.1 hw) hne
  by_cases ho : o.origin = w.origin
  · exact ((waits_concat_same hst hw ho).1 hwait).1
  · exact ((waits_concat_other hw ho).1 hwait).1

/-- Where an opinion comes too late to be ahead of the other side, the newest
opinion of that side waits for it. -/
theorem exists_waiting (hst : Streams (h ++ [o])) (hn : 0 < n) (hv : v ∈ h)
    (hvo : v.origin ≠ o.origin) (hle : o.start ≤ v.start) :
    ∃ z, Waits n h z ∧ z.origin = v.origin ∧ v.start ≤ z.start := by
  obtain ⟨z, hz, hzo, hvz, hzero⟩ := exists_newest (streams_left hst) hv
  refine ⟨z, ⟨hz, by omega, ?_⟩, hzo, hvz⟩
  intro u hu huz
  have huo : u.origin = o.origin := Origin.eq_of_ne_of_ne (hzo ▸ huz) (Ne.symm hvo)
  have hlt := lt_of_streams hst hu huo
  exact UInt32.lt_of_lt_of_le hlt (UInt32.le_trans hle hvz)

namespace Coordinator

variable {c c' : Coordinator} {met : Option Opinion} {r : Outcome} {ks : List Call}

theorem window_pos (config : Config) : 0 < config.window :=
  Nat.lt_of_lt_of_le Nat.zero_lt_one (Nat.le_max_left ..)

/-- Until a desync, the backlog holds just the opinions that have not been overtaken. -/
def Exact (h : List Opinion) (c : Coordinator) : Prop :=
  c.desynced = false → ∀ w, w ∈ c.backlog ↔ Waits c.config.window h w

theorem config_submission (hs : Submission c o met r c') : c'.config = c.config := by
  cases hs <;> rfl

theorem pairwise_backlog (hst : Streams h) (hx : c.backlog <:+ ofSide x h) :
    c.backlog.Pairwise (·.start < ·.start) :=
  (hst x).sublist hx.sublist

theorem lt_of_backlog (hst : Streams h) (hx : c.backlog <:+ ofSide x h) {old later : List Opinion}
    (hs : c.backlog = old ++ w :: later) : ∀ v ∈ later, w.start < v.start := by
  have hp := pairwise_backlog hst hx
  rw [hs] at hp
  exact (List.pairwise_cons.1 (List.pairwise_append.1 hp).2.1).1

theorem behind_of_backlog (hst : Streams h) (hx : c.backlog <:+ ofSide x h)
    {s t : List Opinion} (hb : c.backlog = s ++ w :: t) : behind h w = t.length := by
  have hw := (mem_of_suffix hx (v := w) (by simp [hb])).2
  obtain ⟨s', hs'⟩ := hx
  refine behind_eq (s := s' ++ s) hst ?_
  rw [hw, ← hs', hb, List.append_assoc]

/-- The new opinion starts after all of the other side if it starts after all that wait. -/
theorem ahead_of_backlog (hst : Streams h) (hx : c.backlog <:+ ofSide x h) (hne : c.backlog ≠ [])
    (hlt : ∀ w ∈ c.backlog, w.start < o.start) : ∀ v ∈ h, v.origin = x → v.start < o.start := by
  intro v hv hvx
  obtain ⟨s, hs⟩ := hx
  have hv := mem_ofSide.2 ⟨hv, hvx⟩
  have hp := hst x
  rw [← hs] at hv hp
  rcases List.mem_append.1 hv with hv | hv
  · obtain ⟨w, hw⟩ := List.exists_mem_of_ne_nil _ hne
    exact UInt32.lt_trans ((List.pairwise_append.1 hp).2.2 v hv w hw) (hlt w hw)
  · exact hlt v hv

/-- An opinion of the other side keeps those waiting that start after it. -/
theorem exact_of_split {keep old : List Opinion} (hst : Streams (h ++ [o]))
    (hx : c.backlog <:+ ofSide x h) (hox : o.origin ≠ x)
    (he : ∀ w, w ∈ c.backlog ↔ Waits n h w) (hb : c.backlog = old ++ keep)
    (hold : ∀ v ∈ old, v.start ≤ o.start) (hkeep : ∀ v ∈ keep, o.start < v.start)
    (hlate : ∃ v ∈ c.backlog, o.start ≤ v.start) (w : Opinion) :
    w ∈ keep ↔ Waits n (h ++ [o]) w := by
  constructor
  · intro hw
    have hwb : w ∈ c.backlog := hb ▸ List.mem_append_right _ hw
    obtain ⟨hwh, hwx⟩ := mem_of_suffix hx hwb
    exact (waits_concat_other hwh (hwx ▸ hox)).2 ⟨(he w).1 hwb, hkeep w hw⟩
  · intro hwait
    by_cases hwo : w = o
    · subst w
      obtain ⟨v, hvb, hle⟩ := hlate
      obtain ⟨hvh, hvx⟩ := mem_of_suffix hx hvb
      have hlt := hwait.ahead v (List.mem_append_left _ hvh) (hvx ▸ Ne.symm hox)
      exact absurd hlt (UInt32.not_lt.2 hle)
    · have hwb := (he w).2 (waits_of_concat hst hwait hwo)
      obtain ⟨hwh, hwx⟩ := mem_of_suffix hx hwb
      have hlt := ((waits_concat_other hwh (hwx ▸ hox)).1 hwait).2
      rw [hb] at hwb
      rcases List.mem_append.1 hwb with hw | hw
      · exact absurd hlt (UInt32.not_lt.2 (hold w hw))
      · exact hw

/-- An opinion that finds none of the other side to wait for it waits alone. -/
theorem exact_alone (hst : Streams (h ++ [o])) (hn : 0 < n)
    (ha : ∀ v ∈ h, v.origin ≠ o.origin → v.start < o.start)
    (hno : ∀ w ∈ h, ¬ Waits n (h ++ [o]) w) (w : Opinion) :
    w ∈ [o] ↔ Waits n (h ++ [o]) w := by
  rw [List.mem_singleton]
  constructor
  · rintro rfl
    exact waits_concat_self hst hn ha
  · intro hwait
    rcases List.mem_append.1 hwait.mem with hw | hw
    · exact absurd hwait (hno w hw)
    · exact List.mem_singleton.1 hw

/-- An opinion of the same side waits behind those that it does not crowd out. -/
theorem exact_of_push {keep : List Opinion} (hst : Streams (h ++ [o])) (hn : 0 < n)
    (hx : c.backlog <:+ ofSide x h) (hox : o.origin = x) (he : ∀ w, w ∈ c.backlog ↔ Waits n h w)
    (hne : c.backlog ≠ []) (hsub : keep ⊆ c.backlog)
    (hkeep : ∀ w ∈ c.backlog, w ∈ keep ↔ behind h w + 1 < n) (w : Opinion) :
    w ∈ keep ++ [o] ↔ Waits n (h ++ [o]) w := by
  constructor
  · intro hw
    rcases List.mem_append.1 hw with hw | hw
    · have hwb := hsub hw
      obtain ⟨hwh, hwx⟩ := mem_of_suffix hx hwb
      exact (waits_concat_same hst hwh (hox.trans hwx.symm)).2
        ⟨(he w).1 hwb, (hkeep w hwb).1 hw⟩
    · obtain rfl := List.mem_singleton.1 hw
      obtain ⟨front, hf⟩ := List.exists_mem_of_ne_nil _ hne
      obtain ⟨hfh, hfx⟩ := mem_of_suffix hx hf
      apply waits_concat_self hst hn
      intro v hv hvo
      have hvf := ((he front).1 hf).ahead v hv (by rwa [hfx, ← hox])
      exact UInt32.lt_trans hvf (lt_of_streams hst hfh (hfx.trans hox.symm))
  · intro hwait
    by_cases hwo : w = o
    · exact List.mem_append_right _ (List.mem_singleton.2 hwo)
    · have hwb := (he w).2 (waits_of_concat hst hwait hwo)
      obtain ⟨hwh, hwx⟩ := mem_of_suffix hx hwb
      have hroom := ((waits_concat_same hst hwh (hox.trans hwx.symm)).1 hwait).2
      exact List.mem_append_left _ ((hkeep w hwb).2 hroom)

/-- A backlog with room left has room for all that wait in it. -/
theorem room_of_lt (hst : Streams h) (hx : c.backlog <:+ ofSide x h) (hw : w ∈ c.backlog)
    (hroom : c.backlog.length < c.config.maxBacklog) : behind h w + 1 < c.config.window := by
  obtain ⟨s, t, hsplit⟩ := List.append_of_mem hw
  have hcap : c.config.maxBacklog ≤ c.config.window := Nat.le_max_right ..
  rw [hsplit, List.length_append, List.length_cons] at hroom
  rw [behind_of_backlog hst hx hsplit]
  omega

/-- A full backlog has room for all but the oldest. -/
theorem mem_rest_iff {front : Opinion} {rest : List Opinion} (hst : Streams h)
    (hx : c.backlog <:+ ofSide x h) (he : ∀ w, w ∈ c.backlog ↔ Waits c.config.window h w)
    (hb : c.backlog = front :: rest) (hfull : c.config.maxBacklog ≤ rest.length + 1)
    (hw : w ∈ c.backlog) : w ∈ rest ↔ behind h w + 1 < c.config.window := by
  have hfront := behind_of_backlog (s := []) hst hx hb
  constructor
  · intro hwr
    obtain ⟨s, t, hrest⟩ := List.append_of_mem hwr
    have hbt : c.backlog = (front :: s) ++ w :: t := by rw [hb, hrest, List.cons_append]
    have hlen := congrArg List.length hrest
    have hroom := ((he front).1 (by simp [hb])).room
    rw [behind_of_backlog hst hx hbt]
    simp only [List.length_cons, List.length_append] at hlen
    omega
  · intro hroom
    rw [hb] at hw
    rcases List.mem_cons.1 hw with rfl | hw
    · have hwin : c.config.window ≤ rest.length + 1 := by
        rw [Config.window]
        omega
      omega
    · exact hw

theorem exact_submission (hst : Streams (h ++ [o])) (hr : Recent h c) (he : Exact h c)
    (hs : Submission c o met r c') : Exact (h ++ [o]) c' := by
  intro hd'
  have hd := desynced_submission hs hd'
  have hst' := streams_left hst
  have hn := window_pos c.config
  have he := he hd
  obtain ⟨x, hx⟩ := hr hd
  rw [config_submission hs]
  cases hs with
  | ignored pool hdes => simp [hd] at hdes
  | alone _ hb =>
    have hnone : ∀ w, ¬ Waits c.config.window h w := by
      intro w hwait
      simpa [hb] using (he w).2 hwait
    apply exact_alone hst hn
    · intro v hv hvo
      by_contra hle
      obtain ⟨z, hz, -⟩ := exists_waiting hst hn hv hvo (UInt32.not_lt.1 hle)
      exact hnone z hz
    · intro w hw hwait
      have hwo : w ≠ o := fun hwo => not_mem_of_streams hst (hwo ▸ hw)
      exact hnone w (waits_of_concat hst hwait hwo)
  | @behind front rest _ hb ho hroom =>
    have hfx := (mem_of_suffix hx (v := front) (by simp [hb])).2
    rw [← hb]
    apply exact_of_push hst hn hx (ho.symm.trans hfx) he (by simp [hb]) (List.Subset.refl _)
    intro w hw
    exact ⟨fun _ => room_of_lt hst' hx hw (by simpa [hb] using hroom), fun _ => hw⟩
  | @crowding front rest pool _ hb ho hfull =>
    have hfx := (mem_of_suffix hx (v := front) (by simp [hb])).2
    apply exact_of_push hst hn hx (ho.symm.trans hfx) he (by simp [hb]) (by simp [hb])
    intro w hw
    exact mem_rest_iff hst' hx he hb hfull hw
  | @overtaking front rest pool _ hb ho hlt =>
    have hfx := (mem_of_suffix hx (v := front) (by simp [hb])).2
    have hox : o.origin ≠ x := fun hox => ho (hfx.trans hox.symm)
    have hlast := ahead_of_backlog (o := o) hst' hx (by simp [hb]) hlt
    apply exact_alone hst hn
    · intro v hv hvo
      exact hlast v hv (Origin.eq_of_ne_of_ne hvo (Ne.symm hox))
    · intro w hw hwait
      have hwo : w ≠ o := fun hwo => not_mem_of_streams hst (hwo ▸ hw)
      have hwb := (he w).2 (waits_of_concat hst hwait hwo)
      have hwx := (mem_of_suffix hx hwb).2
      have hgt := ((waits_concat_other hw (hwx ▸ hox)).1 hwait).2
      exact UInt32.lt_irrefl _ (UInt32.lt_trans hgt (hlt w hwb))
  | @stale front w rest old later pool _ hb ho hs hlt hgt =>
    obtain ⟨hox, hl⟩ := suffix_other hx hb ho hs
    refine exact_of_split hst hx hox he hs (fun v hv => UInt32.le_of_lt (hlt v hv)) ?_ ?_
    · intro v hv
      rcases List.mem_cons.1 hv with rfl | hv
      · exact hgt
      · exact UInt32.lt_trans hgt (lt_of_backlog hst' hx hs v hv)
    · exact ⟨w, by simp [hs], UInt32.le_of_lt hgt⟩
  | @agreeing front w rest old later pool _ hb ho hs hlt heq hcmp =>
    obtain ⟨hox, hl⟩ := suffix_other hx hb ho hs
    have hs' : c.backlog = (old ++ [w]) ++ later := by simp [hs]
    refine exact_of_split hst hx hox he hs' ?_ ?_ ?_
    · intro v hv
      rcases List.mem_append.1 hv with hv | hv
      · exact UInt32.le_of_lt (hlt v hv)
      · rw [List.mem_singleton.1 hv, heq]
        exact UInt32.le_refl _
    · intro v hv
      rw [← heq]
      exact lt_of_backlog hst' hx hs v hv
    · exact ⟨w, by simp [hs], by rw [heq]; exact UInt32.le_refl _⟩
  | disagreeing => cases hd'

theorem config_run (config : Config) (ks : List Call) :
    ((new config).after ks).config = config := by
  apply backlog_run (I := fun _ c => c.config = config)
  · rfl
  · intro h c o met r c' hc hs
    exact (config_submission hs).trans hc
  · intro h c c' _ _ hconfig hc
    exact hconfig.trans hc

theorem exact_run (config : Config) (ks : List Call) (hst : Streams (submitted ks)) :
    Exact (submitted ks) ((new config).after ks) := by
  have hrun : Streams (submitted ks) → Exact (submitted ks) ((new config).after ks) := by
    apply (backlog_run (I := fun h c => Recent h c ∧ (Streams h → Exact h c)) ?_ ?_ ?_ ks).2
    · refine ⟨fun _ => ⟨.local, List.nil_suffix⟩, ?_⟩
      intro _ _ w
      exact ⟨fun hw => by simp [new] at hw, fun hwait => by simpa using hwait.mem⟩
    · intro h c o met r c' hi hs
      refine ⟨recent_submission hi.1 hs, ?_⟩
      intro hst
      exact exact_submission hst hi.1 (hi.2 (streams_left hst)) hs
    · intro h c c' hd hb hconfig hi
      constructor
      · intro hd'
        rw [hb]
        exact hi.1 (hd.symm.trans hd')
      · intro hst hd' w
        rw [hb, hconfig]
        exact hi.2 hst (hd.symm.trans hd') w
  exact hrun hst

end Coordinator

end Lockstep
