import Lockstep.IdBlock

/-! The range of a block in whole numbers: none of its sums leaves the id space, and blocks overlap
where they share an id, or where one of them has no ids and lies inside the other. -/
namespace Lockstep.IdBlock

variable {a b : IdBlock} {start size cursor id : EntityId}

theorem toInt_bounds (b : IdBlock) :
    0 ≤ b.start.toInt ∧ 0 ≤ b.cursor.toInt ∧ b.cursor.toInt ≤ b.size.toInt ∧
      b.start.toInt + b.size.toInt ≤ 2147483647 :=
  ⟨Int32.le_iff_toInt_le.1 b.start_nonneg, Int32.le_iff_toInt_le.1 b.cursor_nonneg,
    Int32.le_iff_toInt_le.1 b.cursor_le_size, b.fits⟩

/-- The next id of a block is a number that an id can hold. -/
theorem toInt_next (b : IdBlock) : (b.start + b.cursor).toInt = b.start.toInt + b.cursor.toInt := by
  obtain ⟨hstart, hcursor, hle, hfits⟩ := b.toInt_bounds
  rw [Int32.toInt_add]
  exact Int.bmod_eq_of_le (by omega) (by omega)

theorem toInt_stop (b : IdBlock) : b.stop.toInt = b.start.toInt + b.size.toInt := by
  obtain ⟨hstart, hcursor, hle, hfits⟩ := b.toInt_bounds
  rw [stop, Int32.toInt_add]
  exact Int.bmod_eq_of_le (by omega) (by omega)

theorem toInt_remaining (b : IdBlock) : b.remaining.toInt = b.size.toInt - b.cursor.toInt := by
  obtain ⟨hstart, hcursor, hle, hfits⟩ := b.toInt_bounds
  rw [remaining, Int32.toInt_sub]
  exact Int.bmod_eq_of_le (by omega) (by omega)

theorem contains_iff : b.contains id = true ↔
    b.start.toInt ≤ id.toInt ∧ id.toInt < b.start.toInt + b.size.toInt := by
  rw [contains, Bool.and_eq_true, decide_eq_true_iff, decide_eq_true_iff,
    Int32.le_iff_toInt_le, Int32.lt_iff_toInt_lt, toInt_stop]

theorem overlaps_iff : a.overlaps b = true ↔
    a.start.toInt < b.start.toInt + b.size.toInt ∧
      b.start.toInt < a.start.toInt + a.size.toInt := by
  rw [overlaps, Bool.and_eq_true, decide_eq_true_iff, decide_eq_true_iff,
    Int32.lt_iff_toInt_lt, Int32.lt_iff_toInt_lt, toInt_stop, toInt_stop]

theorem overlaps_of_contains (ha : a.contains id = true) (hb : b.contains id = true) :
    a.overlaps b = true := by
  rw [contains_iff] at ha hb
  rw [overlaps_iff]
  omega

theorem not_contains_of_apart (hapart : a.overlaps b = false) (hid : a.contains id = true) :
    b.contains id = false := by
  rw [← Bool.not_eq_true]
  intro hb
  rw [overlaps_of_contains hid hb] at hapart
  cases hapart

theorem parts_of_ok (h : ofParts start size cursor = .ok b) :
    b.start = start ∧ b.size = size ∧ b.cursor = cursor := by
  rw [ofParts] at h
  split at h
  · split at h
    · cases h
      exact ⟨rfl, rfl, rfl⟩
    · cases h
  · cases h

theorem ofParts_self (b : IdBlock) : ofParts b.start b.size b.cursor = .ok b := by
  have hsize : 0 ≤ b.size := Int32.le_trans b.cursor_nonneg b.cursor_le_size
  rw [ofParts, dif_pos ⟨b.start_nonneg, hsize, b.fits⟩,
    dif_pos ⟨b.cursor_nonneg, b.cursor_le_size⟩]

/-- Some id is one of both blocks. -/
def Meets (a b : IdBlock) : Prop := ∃ id, a.contains id = true ∧ b.contains id = true

/-- The other block has no ids, and its place is past the start and before the stop. -/
def EnclosesEmpty (a b : IdBlock) : Prop := b.size = 0 ∧ a.start < b.start ∧ b.start < a.stop

instance (a b : IdBlock) : Decidable (a.EnclosesEmpty b) := inferInstanceAs (Decidable (_ ∧ _))

/-- If any id is shared, the later one of the two starts is. -/
theorem meets_iff : a.Meets b ↔ max a.start.toInt b.start.toInt <
    min (a.start.toInt + a.size.toInt) (b.start.toInt + b.size.toInt) := by
  constructor
  · rintro ⟨id, ha, hb⟩
    rw [contains_iff] at ha hb
    omega
  · intro h
    rcases Int.le_total a.start.toInt b.start.toInt with hle | hle
    · exact ⟨b.start, contains_iff.2 (by omega), contains_iff.2 (by omega)⟩
    · exact ⟨a.start, contains_iff.2 (by omega), contains_iff.2 (by omega)⟩

instance (a b : IdBlock) : Decidable (a.Meets b) := decidable_of_iff _ meets_iff.symm

theorem enclosesEmpty_iff : a.EnclosesEmpty b ↔ b.size.toInt = 0 ∧
    a.start.toInt < b.start.toInt ∧ b.start.toInt < a.start.toInt + a.size.toInt := by
  rw [EnclosesEmpty, ← Int32.toInt_inj, Int32.lt_iff_toInt_lt, Int32.lt_iff_toInt_lt, toInt_stop,
    Int32.toInt_zero]

theorem not_meets_of_enclosed (h : a.EnclosesEmpty b ∨ b.EnclosesEmpty a) : ¬ a.Meets b := by
  intro hmeets
  have hlt := meets_iff.1 hmeets
  rcases h with henclosed | henclosed
  · obtain ⟨hempty, -⟩ := enclosesEmpty_iff.1 henclosed
    omega
  · obtain ⟨hempty, -⟩ := enclosesEmpty_iff.1 henclosed
    omega

/-- What overlapping blocks have in common: an id, or the place of the one that has none. -/
theorem overlaps_cases :
    a.overlaps b = true ↔ a.Meets b ∨ a.EnclosesEmpty b ∨ b.EnclosesEmpty a := by
  obtain ⟨-, hacursor, hale, -⟩ := a.toInt_bounds
  obtain ⟨-, hbcursor, hble, -⟩ := b.toInt_bounds
  rw [overlaps_iff, meets_iff, enclosesEmpty_iff, enclosesEmpty_iff]
  omega

/-- Blocks overlap if they share an id, and a block that has no ids also overlaps any other one
that it lies strictly inside. So overlapping is sharing an id for just those blocks of which
neither is empty and enclosed by the other, whatever they were made from. -/
theorem overlaps_shares_or_encloses (a b : IdBlock) :
    (a.overlaps b = true ↔ a.Meets b ∨ a.EnclosesEmpty b ∨ b.EnclosesEmpty a) ∧
      ((a.overlaps b = true ↔ a.Meets b) ↔ ¬ (a.EnclosesEmpty b ∨ b.EnclosesEmpty a)) := by
  refine ⟨overlaps_cases, ?_, ?_⟩
  · intro hshares henclosed
    have hover := overlaps_cases.2 (.inr henclosed)
    exact not_meets_of_enclosed henclosed (hshares.1 hover)
  · intro hneither
    constructor
    · intro hover
      exact (overlaps_cases.1 hover).resolve_right hneither
    · rintro ⟨id, ha, hb⟩
      exact overlaps_of_contains ha hb

/-- A block without ids overlaps the one whose ids lie around its place, and shares none with it. -/
theorem overlaps_without_shared :
    let large : IdBlock := ⟨0, 10, 0, by decide, by decide, by decide, by decide⟩
    let empty : IdBlock := ⟨5, 0, 0, by decide, by decide, by decide, by decide⟩
    ofRange 0 10 = .ok large ∧ ofRange 5 0 = .ok empty ∧ large.overlaps empty = true ∧
      ¬ large.Meets empty := by
  intro large empty
  exact ⟨ofParts_self large, ofParts_self empty, by decide, by decide⟩

end Lockstep.IdBlock
