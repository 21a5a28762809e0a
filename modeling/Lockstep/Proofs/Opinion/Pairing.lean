import Lockstep.Opinion.Compare
import Mathlib.Data.List.Basic

/-! Pairs of a local opinion and a remote one that start together, in order and
up to the first that disagrees. -/
namespace Lockstep

/-- A local opinion and a remote one. -/
structure Pairing where
  ours : Opinion
  theirs : Opinion
deriving DecidableEq

namespace Pairing

def Agrees (p : Pairing) : Prop := p.ours.disagreement? p.theirs = none

instance (p : Pairing) : Decidable p.Agrees := inferInstanceAs (Decidable (_ = none))

/-- What a report tells of two opinions that disagree. -/
def finding (p : Pairing) : Opinion × Opinion × Option Nat :=
  (p.ours, p.theirs, p.ours.traceDiff? p.theirs)

end Pairing

/-- Every local opinion with the first remote one that starts with it. -/
def firstPairings (ls rs : List Opinion) : List Pairing :=
  ls.filterMap fun a => (rs.find? (·.start = a.start)).map (Pairing.mk a)

/-- The pairings up to the first that disagrees, and that one. -/
def throughClash : List Pairing → List Pairing
  | [] => []
  | p :: ps => if p.Agrees then p :: throughClash ps else [p]

variable {ls rs : List Opinion} {o : Opinion} {ps qs : List Pairing}

theorem firstPairings_concat_local (ls rs : List Opinion) (o : Opinion) :
    firstPairings (ls ++ [o]) rs =
      firstPairings ls rs ++ ((rs.find? (·.start = o.start)).map (Pairing.mk o)).toList := by
  rw [firstPairings, List.filterMap_append]
  cases h : rs.find? (·.start = o.start) <;> simp [firstPairings, h]

/-- Local opinions that start after all remote ones are in no pairing. -/
theorem firstPairings_eq_nil {t : Tick} (hl : ∀ a ∈ ls, t < a.start)
    (hr : ∀ u ∈ rs, u.start ≤ t) : firstPairings ls rs = [] := by
  refine List.filterMap_eq_nil_iff.2 fun a ha => ?_
  rw [Option.map_eq_none_iff, List.find?_eq_none]
  intro u hu
  have hlt := UInt32.lt_of_le_of_lt (hr u hu) (hl a ha)
  simpa using UInt32.ne_of_lt hlt

theorem firstPairings_concat_remote (hl : ls.Pairwise (·.start < ·.start))
    (hr : ∀ u ∈ rs, u.start ≤ o.start) :
    firstPairings ls (rs ++ [o]) = firstPairings ls rs ++
      ((if ∃ u ∈ rs, u.start = o.start then none
        else ls.find? (·.start = o.start)).map (Pairing.mk · o)).toList := by
  induction ls with
  | nil => simp [firstPairings]
  | cons a ls ih =>
    obtain ⟨ha, hl⟩ := List.pairwise_cons.1 hl
    have ih := ih hl
    rw [firstPairings, firstPairings] at ih
    rw [firstPairings, firstPairings, List.filterMap_cons, List.filterMap_cons,
      List.find?_append, ih]
    by_cases heq : a.start = o.start
    · by_cases hrep : ∃ u ∈ rs, u.start = o.start
      · have hfound : (rs.find? (·.start = o.start)).isSome := by
          simpa using hrep
        obtain ⟨b, hb⟩ := Option.isSome_iff_exists.1 hfound
        simp [heq, hb, hrep]
      · have hnone : rs.find? (·.start = o.start) = none := by
          simpa using hrep
        have htail := firstPairings_eq_nil (heq ▸ ha) hr
        rw [firstPairings] at htail
        have hlater : ls.find? (·.start = o.start) = none := by
          rw [List.find?_eq_none]
          intro b hb
          simpa [← heq] using (UInt32.ne_of_lt (ha b hb)).symm
        simp [hnone, hrep, heq, htail, hlater]
    · have hother : o.start ≠ a.start := Ne.symm heq
      cases hfind : rs.find? (·.start = a.start) <;> simp [heq, hother]

theorem throughClash_eq_self (ha : ∀ p ∈ ps, p.Agrees) : throughClash ps = ps := by
  induction ps with
  | nil => rfl
  | cons p ps ih =>
    obtain ⟨hp, hps⟩ := List.forall_mem_cons.1 ha
    rw [throughClash, if_pos hp, ih hps]

/-- A clash closes a list of pairings: what follows is not reached. -/
theorem throughClash_append (hc : ∃ p ∈ ps, ¬ p.Agrees) :
    throughClash (ps ++ qs) = throughClash ps := by
  induction ps with
  | nil => simp at hc
  | cons p ps ih =>
    rw [List.cons_append, throughClash, throughClash]
    by_cases hp : p.Agrees
    · rw [if_pos hp, if_pos hp, ih (by simpa [hp] using hc)]
    · rw [if_neg hp, if_neg hp]

/-- With no clash so far, the next pairing is reached. -/
theorem throughClash_concat (ha : ∀ p ∈ ps, p.Agrees) (q : Option Pairing) :
    throughClash (ps ++ q.toList) = ps ++ q.toList := by
  induction ps with
  | nil => cases q <;> simp [throughClash]
  | cons p ps ih =>
    obtain ⟨hp, hps⟩ := List.forall_mem_cons.1 ha
    rw [List.cons_append, throughClash, if_pos hp, ih hps]

theorem throughClash_agrees_iff : (∀ p ∈ throughClash ps, p.Agrees) ↔ ∀ p ∈ ps, p.Agrees := by
  induction ps with
  | nil => rfl
  | cons p ps ih =>
    rw [throughClash]
    by_cases hp : p.Agrees
    · simp [hp, ih]
    · simp [hp]

theorem filter_throughClash (ps : List Pairing) :
    (throughClash ps).filter (·.Agrees) = ps.takeWhile (·.Agrees) := by
  induction ps with
  | nil => rfl
  | cons p ps ih =>
    rw [throughClash]
    by_cases hp : p.Agrees
    · simp [hp, ih]
    · simp [hp]

theorem find?_throughClash (ps : List Pairing) :
    (throughClash ps).find? (¬ ·.Agrees) = ps.find? (¬ ·.Agrees) := by
  induction ps with
  | nil => rfl
  | cons p ps ih =>
    rw [throughClash]
    by_cases hp : p.Agrees
    · simpa [hp] using ih
    · simp [hp]

end Lockstep
