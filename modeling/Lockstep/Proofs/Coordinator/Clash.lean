import Lockstep.Proofs.Coordinator.Reports
import Lockstep.Proofs.Coordinator.Window

/-! Where nothing is crowded out, what both sides have submitted decides the
verdicts, whatever the order in which they did. -/
namespace Lockstep

/-- Opinions of both sides start on this tick. -/
def Common (h : List Opinion) (t : Tick) : Prop :=
  ∃ a ∈ ofSide .local h, ∃ b ∈ ofSide .remote h, a.start = t ∧ b.start = t

/-- Opinions of both sides start on this tick and disagree. -/
def Clash (h : List Opinion) (t : Tick) : Prop :=
  ∃ a ∈ ofSide .local h, ∃ b ∈ ofSide .remote h,
    a.start = t ∧ b.start = t ∧ a.disagreement? b ≠ none

def FirstClash (h : List Opinion) (t : Tick) : Prop := Clash h t ∧ ∀ s, Clash h s → t ≤ s

/-- Each side submits by increasing start, and no more than `n` opinions. -/
structure Roomy (n : Nat) (h : List Opinion) : Prop where
  streams : Streams h
  length_le : ∀ x, (ofSide x h).length ≤ n

variable {n : Nat} {h g : List Opinion} {a b : Opinion} {t s : Tick} {m : Comparison}

theorem firstClash_unique (ht : FirstClash h t) (hs : FirstClash h s) : t = s := by
  by_contra hne
  exact UInt32.not_lt.2 (hs.2 t ht.1) (UInt32.lt_of_le_of_ne (ht.2 s hs.1) hne)

/-- The local and the remote opinion of a comparison. -/
theorem Comparison.Paired.sides (hm : m.Paired h) :
    ∃ a ∈ ofSide .local h, ∃ b ∈ ofSide .remote h, a.start = m.earlier.start ∧
      b.start = m.earlier.start ∧ (m.Agrees ↔ a.disagreement? b = none) := by
  obtain ⟨he, hl, hne, hst⟩ := hm
  rcases Origin.local_remote_of_ne hne with ⟨hx, hy⟩ | ⟨hx, hy⟩
  · exact ⟨_, mem_ofSide.2 ⟨he, hx⟩, _, mem_ofSide.2 ⟨hl, hy⟩, rfl, hst.symm, Iff.rfl⟩
  · exact ⟨_, mem_ofSide.2 ⟨hl, hy⟩, _, mem_ofSide.2 ⟨he, hx⟩, hst.symm, rfl,
      Opinion.disagreement?_eq_none_comm.symm⟩

theorem Comparison.Paired.common (hm : m.Paired h) : Common h m.earlier.start := by
  obtain ⟨a, ha, b, hb, hat, hbt, -⟩ := hm.sides
  exact ⟨a, ha, b, hb, hat, hbt⟩

theorem Comparison.Paired.clash (hm : m.Paired h) (hd : ¬ m.Agrees) :
    Clash h m.earlier.start := by
  obtain ⟨a, ha, b, hb, hat, hbt, hiff⟩ := hm.sides
  exact ⟨a, ha, b, hb, hat, hbt, fun hc => hd (hiff.2 hc)⟩

namespace Coordinator

variable {config : Config} {ks pre mid post : List Call}

theorem lag_lt (hr : Roomy n (submitted (pre ++ .submit a :: mid ++ .submit b :: post))) :
    lag a mid < n := by
  have ha := hr.length_le a.origin
  rw [submitted_append, submitted_append, submitted_cons, ofSide_append, ofSide_append,
    ofSide_append] at ha
  have hself : (ofSide a.origin (Call.submit a).opinion?.toList).length = 1 := by
    simp [Call.opinion?, ofSide]
  simp only [List.length_append, hself] at ha
  rw [lag]
  omega

/-- Unless something has disagreed before, the second of two opinions that
start together is compared with the first. -/
theorem compared_of_split (hr : Roomy config.window (submitted ks))
    (hks : ks = pre ++ .submit a :: mid ++ .submit b :: post) (hne : a.origin ≠ b.origin)
    (heq : a.start = b.start) :
    (∃ m ∈ (new config).comparisons ks, ¬ m.Agrees ∧ m.earlier.start < a.start) ∨
      ⟨a, b⟩ ∈ (new config).comparisons ks := by
  subst ks
  have hst' := streams_submitted hr.streams
  by_cases hd : ((new config).after (pre ++ .submit a :: mid)).desynced = false
  · right
    exact mem_comparisons.2 ⟨_, post, rfl, (counterpart_iff_lag hst' hne heq hd).2 (lag_lt hr)⟩
  · left
    rw [desynced_run_eq_false] at hd
    push Not at hd
    obtain ⟨m, hm, hdis⟩ := hd
    refine ⟨m, ?_, hdis, heq ▸ lt_of_paired hst' (paired_run hm)⟩
    rw [comparisons_append]
    exact List.mem_append_left _ hm

theorem compared_or_ended (hr : Roomy config.window (submitted ks))
    (ha : a ∈ ofSide .local (submitted ks)) (hb : b ∈ ofSide .remote (submitted ks))
    (heq : a.start = b.start) :
    (∃ m ∈ (new config).comparisons ks, ¬ m.Agrees ∧ m.earlier.start < a.start) ∨
      ∃ m ∈ (new config).comparisons ks, m.earlier.start = a.start ∧
        (m.Agrees ↔ a.disagreement? b = none) := by
  obtain ⟨ha, hx⟩ := mem_ofSide.1 ha
  obtain ⟨hb, hy⟩ := mem_ofSide.1 hb
  have hne : a.origin ≠ b.origin := by simp [hx, hy]
  obtain ⟨front, back, hks⟩ := List.append_of_mem (mem_submitted.1 ha)
  have hb := mem_submitted.1 hb
  rw [hks, List.mem_append, List.mem_cons] at hb
  rcases hb with hb | hb | hb
  · obtain ⟨pre, mid, rfl⟩ := List.append_of_mem hb
    rcases compared_of_split hr hks hne.symm heq.symm with ⟨m, hm, hdis, hlt⟩ | hm
    · exact Or.inl ⟨m, hm, hdis, heq ▸ hlt⟩
    · exact Or.inr ⟨_, hm, heq.symm, Opinion.disagreement?_eq_none_comm.symm⟩
  · exact absurd (congrArg Opinion.origin (Call.submit.inj hb)) hne.symm
  · obtain ⟨mid, post, rfl⟩ := List.append_of_mem hb
    have hks : ks = front ++ .submit a :: mid ++ .submit b :: post := by simp [hks]
    rcases compared_of_split hr hks hne heq with hend | hm
    · exact Or.inl hend
    · exact Or.inr ⟨_, hm, rfl, Iff.rfl⟩

/-- A disagreement is the last comparison of a run. -/
theorem le_of_disagreement {k : Comparison} (hst : Streams (submitted ks))
    (hm : m ∈ (new config).comparisons ks) (hk : k ∈ (new config).comparisons ks)
    (hdis : ¬ k.Agrees) : m.earlier.start ≤ k.earlier.start := by
  have hp := pairwise_comparisons config hst
  cases judged_run config ks with
  | running _ hall => exact absurd (hall k hk) hdis
  | @ended _ ns hms hall =>
    rw [hms] at hm hk hp
    rcases List.mem_append.1 hk with hk | hk
    · exact absurd (hall k hk) hdis
    · rcases List.mem_append.1 hm with hm | hm
      · exact UInt32.le_of_lt ((List.pairwise_append.1 hp).2.2 m hm k hk)
      · rw [List.mem_singleton.1 hm, List.mem_singleton.1 hk]
        exact UInt32.le_refl _

/-- The run ends at the first tick on which both sides start and disagree. -/
theorem firstClash_iff (hr : Roomy config.window (submitted ks)) :
    FirstClash (submitted ks) t ↔
      ∃ m ∈ (new config).comparisons ks, ¬ m.Agrees ∧ m.earlier.start = t := by
  constructor
  · rintro ⟨⟨a, ha, b, hb, rfl, hbt, hdis⟩, hmin⟩
    rcases compared_or_ended hr ha hb hbt.symm with ⟨m, hm, hdis, hlt⟩ | ⟨m, hm, hmt, hiff⟩
    · exact absurd hlt (UInt32.not_lt.2 (hmin _ ((paired_run hm).clash hdis)))
    · exact ⟨m, hm, fun hc => hdis (hiff.1 hc), hmt⟩
  · rintro ⟨m, hm, hdis, rfl⟩
    refine ⟨(paired_run hm).clash hdis, ?_⟩
    rintro s ⟨a, ha, b, hb, rfl, hbt, hab⟩
    rcases compared_or_ended hr ha hb hbt.symm with ⟨k, hk, hkdis, hlt⟩ | ⟨k, hk, hkt, hiff⟩
    · exact UInt32.le_of_lt (UInt32.lt_of_le_of_lt (le_of_disagreement hr.streams hm hk hkdis) hlt)
    · have hkdis : ¬ k.Agrees := fun hc => hab (hiff.1 hc)
      exact hkt ▸ le_of_disagreement hr.streams hm hk hkdis

/-- Up to the first clash, all that start together have been compared. -/
theorem mem_starts_iff (hr : Roomy config.window (submitted ks)) :
    t ∈ ((new config).comparisons ks).map (·.earlier.start) ↔
      Common (submitted ks) t ∧ ∀ s, FirstClash (submitted ks) s → t ≤ s := by
  rw [List.mem_map]
  constructor
  · rintro ⟨m, hm, rfl⟩
    refine ⟨(paired_run hm).common, ?_⟩
    intro s hs
    obtain ⟨k, hk, hkdis, rfl⟩ := (firstClash_iff hr).1 hs
    exact le_of_disagreement hr.streams hm hk hkdis
  · rintro ⟨⟨a, ha, b, hb, rfl, hbt⟩, hfirst⟩
    rcases compared_or_ended hr ha hb hbt.symm with ⟨m, hm, hdis, hlt⟩ | ⟨m, hm, hmt, -⟩
    · have hle := hfirst _ ((firstClash_iff hr).2 ⟨m, hm, hdis, rfl⟩)
      exact absurd hlt (UInt32.not_lt.2 hle)
    · exact ⟨m, hm, hmt⟩

end Coordinator

end Lockstep
