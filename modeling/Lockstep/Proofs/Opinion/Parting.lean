import Lockstep.Proofs.Opinion.Symmetry

/-! Where the trace logs of two opinions part: at the first different hash, or at the last hash of a
log that the other one goes on from. -/
namespace Lockstep

/-- The short list ends with this index, and the long one goes on from there. -/
structure EndsAt {α : Type} (short long : List α) (i : Nat) : Prop where
  begins : short <+: long
  shorter : short.length < long.length
  last : i + 1 = short.length

/-- Two lists part at an index. Both reach it and they agree before it, and either they differ
there, or one of them ends with it. -/
structure PartsAt {α : Type} (xs ys : List α) (i : Nat) : Prop where
  ours : i < xs.length
  theirs : i < ys.length
  before : ∀ j < i, xs[j]? = ys[j]?
  reason : xs[i]? ≠ ys[i]? ∨ EndsAt xs ys i ∨ EndsAt ys xs i

section Lists
variable {α : Type} {xs ys : List α} {i j : Nat}

theorem EndsAt.before (h : EndsAt xs ys i) (hj : j < xs.length) : xs[j]? = ys[j]? := by
  rw [List.prefix_iff_getElem?.1 h.begins j hj, List.getElem?_eq_getElem hj]

theorem PartsAt.symm (h : PartsAt xs ys i) : PartsAt ys xs i where
  ours := h.theirs
  theirs := h.ours
  before j hj := (h.before j hj).symm
  reason := h.reason.imp Ne.symm Or.symm

theorem EndsAt.partsAt (h : EndsAt xs ys i) : PartsAt xs ys i where
  ours := by
    have hlast := h.last
    omega
  theirs := by
    have hlast := h.last
    have hshorter := h.shorter
    omega
  before j hj := h.before (by have hlast := h.last; omega)
  reason := .inr (.inl h)

/-- Lists that part differ, and there is something in both of them. -/
theorem PartsAt.ne (h : PartsAt xs ys i) : ¬ (xs = ys ∨ xs = [] ∨ ys = []) := by
  rintro (rfl | rfl | rfl)
  · rcases h.reason with hdiffer | hends | hends
    · exact hdiffer rfl
    · exact Nat.lt_irrefl _ hends.shorter
    · exact Nat.lt_irrefl _ hends.shorter
  · exact Nat.not_lt_zero i h.ours
  · exact Nat.not_lt_zero i h.theirs

/-- Beyond an index at which they part, lists do not part again. -/
theorem PartsAt.le (h : PartsAt xs ys i) (k : PartsAt xs ys j) : j ≤ i := by
  by_contra hlt
  have hours := k.ours
  have htheirs := k.theirs
  rcases h.reason with hdiffer | hends | hends
  · exact hdiffer (k.before i (by omega))
  · have hlast := hends.last
    omega
  · have hlast := hends.last
    omega

variable [DecidableEq α]

/-- Without a mismatch, the shorter list is the beginning of the longer one. -/
theorem prefix_of_no_mismatch (h : firstMismatch? xs ys = none) (hle : xs.length ≤ ys.length) :
    xs <+: ys := by
  rw [List.prefix_iff_getElem?]
  intro j hj
  rw [← agree_of_no_mismatch h j hj (by omega), List.getElem?_eq_getElem hj]

theorem no_mismatch_symm (h : firstMismatch? xs ys = none) : firstMismatch? ys xs = none := by
  rw [firstMismatch?_swap, h]
  rfl

theorem partsAt_of_mismatch {x y : α} (h : firstMismatch? xs ys = some (i, x, y)) :
    PartsAt xs ys i := by
  obtain ⟨hbefore, hx, hy, hne⟩ := mismatch_place h
  obtain ⟨hours, -⟩ := List.getElem?_eq_some_iff.1 hx
  obtain ⟨htheirs, -⟩ := List.getElem?_eq_some_iff.1 hy
  refine ⟨hours, htheirs, hbefore, .inl ?_⟩
  rw [hx, hy]
  exact fun he => hne (Option.some.inj he)

end Lists

namespace Opinion
variable {a b : Opinion} {i : Nat}

/-- A place that is found is one where the logs part. -/
theorem partsAt_of_traceDiff? (h : a.traceDiff? b = some i) : PartsAt a.hashes b.hashes i := by
  rw [traceDiff?] at h
  split at h
  next hm =>
    cases h
    exact partsAt_of_mismatch hm
  next hm =>
    dsimp only at h
    split at h
    · cases h
    next hgo =>
      rw [not_or] at hgo
      obtain ⟨hlen, hshared⟩ := hgo
      cases h
      -- The logs agree as far as both go, and end here where the shorter one does.
      rcases Nat.lt_or_gt_of_ne hlen with hlt | hgt
      · have hbegins := prefix_of_no_mismatch hm (Nat.le_of_lt hlt)
        exact EndsAt.partsAt ⟨hbegins, hlt, by omega⟩
      · have hbegins := prefix_of_no_mismatch (no_mismatch_symm hm) (Nat.le_of_lt hgt)
        exact (EndsAt.partsAt ⟨hbegins, hgt, by omega⟩).symm

theorem traceDiff?_eq_none_iff :
    a.traceDiff? b = none ↔ a.hashes = b.hashes ∨ a.hashes = [] ∨ b.hashes = [] := by
  constructor
  · intro h
    rw [traceDiff?] at h
    split at h
    · cases h
    next hm =>
      dsimp only at h
      split at h
      next hstop =>
        rcases hstop with hlen | hshared
        · exact .inl (eq_of_no_mismatch hm hlen)
        · rw [Nat.min_eq_zero_iff, List.length_eq_zero_iff, List.length_eq_zero_iff] at hshared
          exact .inr hshared
      · cases h
  · intro h
    by_contra hsome
    obtain ⟨i, hi⟩ := Option.ne_none_iff_exists'.1 hsome
    exact (partsAt_of_traceDiff? hi).ne h

/-- Wherever logs part, the place is found. -/
theorem traceDiff?_of_partsAt (h : PartsAt a.hashes b.hashes i) : a.traceDiff? b = some i := by
  cases hfound : a.traceDiff? b with
  | none => exact absurd (traceDiff?_eq_none_iff.1 hfound) h.ne
  | some j =>
    have hparts := partsAt_of_traceDiff? hfound
    rw [Nat.le_antisymm (h.le hparts) (hparts.le h)]

/-- Where traces part is found exactly, and from either side. No place is found just if the logs
are equal or one of them is empty; and a place is found just if it is within both logs, all hashes
before it agree, and either the hashes there differ, or it is the last of one log and the other
goes on. -/
theorem traceDiff_exact (a b : Opinion) :
    a.traceDiff? b = b.traceDiff? a ∧
      (a.traceDiff? b = none ↔ a.hashes = b.hashes ∨ a.hashes = [] ∨ b.hashes = []) ∧
      ∀ i, a.traceDiff? b = some i ↔ PartsAt a.hashes b.hashes i :=
  ⟨traceDiff?_comm b a, traceDiff?_eq_none_iff,
    fun _ => ⟨partsAt_of_traceDiff?, traceDiff?_of_partsAt⟩⟩

/-- The last hash that both have, not the first that only one of them has. -/
example :
    let longer : Opinion := { origin := .local, start := 0, hashes := [10, 20, 30] }
    let shorter : Opinion := { origin := .remote, start := 0, hashes := [10, 20] }
    longer.traceDiff? shorter = some 1 := by
  decide

end Opinion

end Lockstep
