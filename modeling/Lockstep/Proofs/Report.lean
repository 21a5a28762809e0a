import Lockstep.Report
import Mathlib.Data.List.Induction

/-! The lines that a report quotes: the local entries next to the place where the traces part. -/
namespace Lockstep

/-- A part of a list is what stands at its indices. -/
theorem drop_take_eq_filter {α : Type} (xs : List α) (start stop : Nat) :
    (xs.take stop).drop start =
      (xs.zipIdx.filter fun x => start ≤ x.2 ∧ x.2 < stop).map Prod.fst := by
  induction xs using List.reverseRecOn with
  | nil => simp
  | append_singleton xs x ih =>
    rw [List.take_append, List.drop_append, ih, List.zipIdx_append, List.filter_append,
      List.map_append, List.length_take, List.zipIdx_singleton, Nat.zero_add]
    congr 1
    -- The last index is in the part, before its start, or past its end.
    rcases Nat.lt_or_ge xs.length stop with hstop | hstop
    · have hone : [x].take (stop - xs.length) = [x] := List.take_of_length_le (by simp; omega)
      rw [hone, Nat.min_eq_right (Nat.le_of_lt hstop)]
      rcases Nat.lt_or_ge xs.length start with hstart | hstart
      · rw [List.filter_cons_of_neg (by simp; omega), List.drop_of_length_le (by simp; omega)]
        rfl
      · rw [List.filter_cons_of_pos (by simp; omega), Nat.sub_eq_zero_of_le hstart]
        rfl
    · rw [List.filter_cons_of_neg (by simp; omega), Nat.sub_eq_zero_of_le hstop]
      simp

namespace Report
variable {r : Report} {i : Nat}

theorem linesAround_none (h : r.diffAt = none) (radius : Nat) : r.linesAround radius = [] := by
  rw [linesAround, entriesAround, h]
  rfl

theorem entriesAround_some (h : r.diffAt = some i) (radius : Nat) :
    r.entriesAround radius =
      (r.localOpinion.entries.take (i + radius + 1)).drop (i - radius) := by
  rw [entriesAround, h]

/-- The lines are those of the entries at most `radius` away. -/
theorem linesAround_eq_filter (h : r.diffAt = some i) (radius : Nat) :
    r.linesAround radius =
      (r.localOpinion.entries.zipIdx.filter fun x => i ≤ x.2 + radius ∧ x.2 ≤ i + radius).map
        (·.1.describe) := by
  have hpart := drop_take_eq_filter r.localOpinion.entries (i - radius) (i + radius + 1)
  have hnear : ∀ j, (i - radius ≤ j ∧ j < i + radius + 1) ↔ (i ≤ j + radius ∧ j ≤ i + radius) := by
    intro j
    omega
  rw [linesAround, entriesAround_some h]
  simp only [hnear] at hpart
  rw [hpart, List.map_map]
  rfl

theorem length_linesAround_le (r : Report) (radius : Nat) :
    (r.linesAround radius).length ≤ 2 * radius + 1 := by
  cases h : r.diffAt with
  | none =>
    rw [linesAround_none h]
    exact Nat.zero_le _
  | some i =>
    rw [linesAround, entriesAround_some h, List.length_map, List.length_drop, List.length_take]
    omega

/-- The entry at the place itself is among the lines, however few there are. -/
theorem describe_mem_linesAround (h : r.diffAt = some i) (hi : i < r.localOpinion.entries.length)
    (radius : Nat) : (r.localOpinion.entries[i]).describe ∈ r.linesAround radius := by
  rw [linesAround_eq_filter h]
  have hat : (r.localOpinion.entries[i], i) ∈ r.localOpinion.entries.zipIdx :=
    List.mk_mem_zipIdx_iff_getElem?.2 (List.getElem?_eq_getElem hi)
  exact List.mem_map_of_mem (List.mem_filter.2 ⟨hat, by simp⟩)

/-- To stop at a word's greatest value instead of overflowing changes nothing, as long as the
entries can be counted with such words. -/
theorem entriesAround_saturating {limit : Nat} (h : r.diffAt = some i)
    (hlimit : r.localOpinion.entries.length ≤ limit) (radius : Nat) :
    r.entriesAround radius =
      (r.localOpinion.entries.take (min (i + (radius + 1)) limit)).drop (i - radius) := by
  rw [entriesAround_some h]
  rcases Nat.le_total (i + (radius + 1)) limit with hle | hle
  · rw [Nat.min_eq_left hle, Nat.add_assoc]
  · rw [Nat.min_eq_right hle, List.take_of_length_le hlimit, List.take_of_length_le (by omega)]

end Report

end Lockstep
