import Lockstep.Opinion.Compare
import Lockstep.Opinion.Wire
import Lockstep.Proofs.Mismatch
import Mathlib.Data.List.Sort

/-! Comparing two opinions from either side, and through their wire copies. -/
namespace Lockstep

/-- The same divergence as the other side sees it. -/
def Divergence.swap (d : Divergence) : Divergence :=
  { d with
    kind := match d.kind with
      | .state ours theirs => .state theirs ours
      | .count ours theirs => .count theirs ours }

def RangeMismatch.swap (m : RangeMismatch) : RangeMismatch := ⟨m.theirs, m.ours⟩

/-- Ours and theirs exchanged. -/
def Disagreement.swap : Disagreement → Disagreement
  | .divergence d => .divergence d.swap
  | .rangeMismatch m => .rangeMismatch m.swap

@[simp] theorem Divergence.swap_swap (e : Divergence) : e.swap.swap = e := by
  obtain ⟨k, i, kind⟩ := e
  cases kind <;> rfl

@[simp] theorem Disagreement.swap_swap (e : Disagreement) : e.swap.swap = e := by
  cases e with
  | divergence e => exact congrArg Disagreement.divergence e.swap_swap
  | rangeMismatch m => rfl

theorem Divergence.between_swap (c : Category) (xs ys : List Sample) :
    between c ys xs = (between c xs ys).map swap := by
  rw [between, between, firstMismatch?_swap]
  cases firstMismatch? xs ys with
  | some m => rfl
  | none =>
    by_cases h : xs.length = ys.length
    · simp [h]
    · simp [h, Ne.symm h, swap, Nat.min_comm]

/-- What the sides have at a divergence is never the same. -/
theorem Divergence.swap_ne_of_between {c : Category} {xs ys : List Sample} {d : Divergence}
    (h : between c xs ys = some d) : d.swap ≠ d := by
  rw [between] at h
  split at h
  next hm =>
    cases h
    obtain ⟨-, -, -, hne⟩ := mismatch_place hm
    intro he
    injection he with _ _ hk
    injection hk with hk
    exact hne hk.symm
  next =>
    split at h
    · cases h
    next hne =>
      cases h
      intro he
      injection he with _ _ hk
      injection hk with hk
      exact hne hk.symm

theorem mem_insertId {id k : MapId} {ks : List MapId} :
    k ∈ insertId id ks ↔ k = id ∨ k ∈ ks := by
  induction ks with
  | nil => simp [insertId]
  | cons j js ih =>
    rw [insertId]
    split
    · simp
    split
    next he => simp [he]
    · simp only [List.mem_cons, ih]
      exact or_left_comm

theorem pairwise_insertId {id : MapId} {ks : List MapId} (h : ks.Pairwise (· < ·)) :
    (insertId id ks).Pairwise (· < ·) := by
  induction ks with
  | nil => simp [insertId]
  | cons j js ih =>
    obtain ⟨hj, hjs⟩ := List.pairwise_cons.1 h
    rw [insertId]
    split
    next hlt =>
      refine List.pairwise_cons.2 ⟨?_, h⟩
      intro k hk
      rcases List.mem_cons.1 hk with rfl | hk
      · exact hlt
      · exact Int32.lt_trans hlt (hj k hk)
    next hge =>
      split
      · exact h
      next hne =>
        refine List.pairwise_cons.2 ⟨?_, ih hjs⟩
        intro k hk
        rcases mem_insertId.1 hk with rfl | hk
        · exact Int32.lt_of_le_of_ne (Int32.not_lt.1 hge) (Ne.symm hne)
        · exact hj k hk

theorem mem_foldr_insertId {k : MapId} {is ks : List MapId} :
    k ∈ is.foldr insertId ks ↔ k ∈ is ∨ k ∈ ks := by
  induction is with
  | nil => simp
  | cons i is ih => simp [mem_insertId, ih, or_assoc]

theorem pairwise_foldr_insertId {is ks : List MapId} (h : ks.Pairwise (· < ·)) :
    (is.foldr insertId ks).Pairwise (· < ·) := by
  induction is with
  | nil => exact h
  | cons i is ih => exact pairwise_insertId ih

namespace Opinion
variable {a b : Opinion} {cause : Disagreement}

/-- Both sides compare the same categories in the same order. -/
theorem categories_comm (a b : Opinion) : b.categories a = a.categories b := by
  have ha : a.mapIds.Pairwise (· < ·) := SampleMap.pairwise_ids _
  have hb : b.mapIds.Pairwise (· < ·) := SampleMap.pairwise_ids _
  have h : a.mapIds.foldr insertId b.mapIds = b.mapIds.foldr insertId a.mapIds := by
    apply List.Pairwise.eq_of_mem_iff (pairwise_foldr_insertId hb) (pairwise_foldr_insertId ha)
    intro k
    rw [mem_foldr_insertId, mem_foldr_insertId, or_comm]
  rw [categories, categories, h]

theorem disagreement?_swap (a b : Opinion) :
    b.disagreement? a = (a.disagreement? b).map Disagreement.swap := by
  rw [disagreement?, disagreement?, categories_comm a b]
  by_cases h : a.range.Compatible b.range
  · have hs : ((a.categories b).findSome? fun c =>
        Divergence.between c (b.samples c) (a.samples c)) =
          ((a.categories b).findSome? fun c =>
            Divergence.between c (a.samples c) (b.samples c)).map Divergence.swap := by
      rw [List.map_findSome?]
      congr 1
      funext c
      exact Divergence.between_swap c _ _
    rw [if_pos h, if_pos h.symm, hs, Option.map_map, Option.map_map]
    rfl
  · have h' : ¬ b.range.Compatible a.range := fun hc => h hc.symm
    rw [if_neg h, if_neg h']
    rfl

theorem disagreement?_eq_none_comm : b.disagreement? a = none ↔ a.disagreement? b = none := by
  rw [disagreement?_swap a b, Option.map_eq_none_iff]

/-- A disagreement tells which side is ours: the other side sees another one. -/
theorem swap_ne_of_disagreement (h : a.disagreement? b = some cause) : cause.swap ≠ cause := by
  rw [disagreement?] at h
  split at h
  · obtain ⟨d, hd, rfl⟩ := Option.map_eq_some_iff.1 h
    obtain ⟨_, _, hd⟩ := List.exists_of_findSome?_eq_some hd
    intro he
    injection he with he
    exact Divergence.swap_ne_of_between hd he
  next hc =>
    cases h
    intro he
    injection he with he
    injection he with he
    exact hc (he ▸ TickRange.Compatible.refl _)

/-- Ranges that start together clash only where both have ended, at different
ticks. -/
theorem stops_of_rangeMismatch {m : RangeMismatch} (hs : a.start = b.start)
    (h : a.disagreement? b = some (.rangeMismatch m)) :
    ∃ s t, a.stop = some s ∧ b.stop = some t ∧ s ≠ t := by
  rw [disagreement?] at h
  split at h
  · obtain ⟨_, _, he⟩ := Option.map_eq_some_iff.1 h
    cases he
  next hc =>
    cases ha : a.stop with
    | none => exact absurd ⟨hs, Or.inl ha⟩ hc
    | some s =>
      cases hb : b.stop with
      | none => exact absurd ⟨hs, Or.inr (Or.inl hb)⟩ hc
      | some t =>
        refine ⟨s, t, rfl, rfl, fun he => hc ⟨hs, Or.inr (Or.inr ?_)⟩⟩
        rw [range, range, ha, hb, he]

/-- Opinions on one range can only disagree by a divergence. -/
theorem divergence_of_range (hr : a.range = b.range) (h : a.disagreement? b = some cause) :
    ∃ d, cause = .divergence d := by
  rw [disagreement?, if_pos (hr ▸ TickRange.Compatible.refl _)] at h
  obtain ⟨d, _, rfl⟩ := Option.map_eq_some_iff.1 h
  exact ⟨d, rfl⟩

@[simp] theorem disagreement?_wire_left (a b : Opinion) :
    a.wire.disagreement? b = a.disagreement? b := by
  simp [disagreement?, categories]

@[simp] theorem disagreement?_wire_right (a b : Opinion) :
    a.disagreement? b.wire = a.disagreement? b := by
  simp [disagreement?, categories]

theorem traceDiff?_comm (a b : Opinion) : b.traceDiff? a = a.traceDiff? b := by
  rw [traceDiff?, traceDiff?, firstMismatch?_swap a.hashes b.hashes]
  cases firstMismatch? a.hashes b.hashes with
  | some m => rfl
  | none => simp [Nat.min_comm, eq_comm]

@[simp] theorem traceDiff?_wire_left (a b : Opinion) :
    a.wire.traceDiff? b = a.traceDiff? b := by
  simp [traceDiff?]

@[simp] theorem traceDiff?_wire_right (a b : Opinion) :
    a.traceDiff? b.wire = a.traceDiff? b := by
  simp [traceDiff?]

end Opinion

end Lockstep
