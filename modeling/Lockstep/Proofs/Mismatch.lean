import Lockstep.Mismatch

/-! Where two lists first differ, each read as a partial function: at their first mismatch, or else
where the shorter one ends. -/
namespace Lockstep

variable {α : Type} [DecidableEq α] {xs ys : List α} {i : Nat} {x y : α}

/-- The place is the first at which two lists differ, each read as a partial function. -/
structure FirstDifference (xs ys : List α) (i : Nat) : Prop where
  before : ∀ j < i, xs[j]? = ys[j]?
  differs : xs[i]? ≠ ys[i]?

theorem mismatch_place (h : firstMismatch? xs ys = some (i, x, y)) :
    (∀ j < i, xs[j]? = ys[j]?) ∧ xs[i]? = some x ∧ ys[i]? = some y ∧ x ≠ y := by
  induction xs generalizing ys i with
  | nil => simp [firstMismatch?] at h
  | cons u us ih =>
    cases ys with
    | nil => simp [firstMismatch?] at h
    | cons v vs =>
      by_cases huv : u = v
      · rw [firstMismatch?, if_pos huv] at h
        obtain ⟨⟨k, m⟩, hk, hm⟩ := Option.map_eq_some_iff.1 h
        cases hm
        obtain ⟨hbefore, hplace⟩ := ih hk
        refine ⟨?_, hplace⟩
        intro j hj
        cases j with
        | zero => simp [huv]
        | succ j => simpa using hbefore j (by omega)
      · rw [firstMismatch?, if_neg huv] at h
        cases h
        simpa using huv

theorem firstDifference_of_mismatch (h : firstMismatch? xs ys = some (i, x, y)) :
    FirstDifference xs ys i := by
  obtain ⟨hbefore, hx, hy, hne⟩ := mismatch_place h
  refine ⟨hbefore, ?_⟩
  rw [hx, hy]
  exact fun he => hne (Option.some.inj he)

theorem agree_of_no_mismatch (h : firstMismatch? xs ys = none) :
    ∀ j, j < xs.length → j < ys.length → xs[j]? = ys[j]? := by
  induction xs generalizing ys with
  | nil => simp
  | cons u us ih =>
    cases ys with
    | nil => simp
    | cons v vs =>
      by_cases huv : u = v
      · rw [firstMismatch?, if_pos huv, Option.map_eq_none_iff] at h
        intro j hj hj'
        cases j with
        | zero => simp [huv]
        | succ j => simpa using ih h j (by simpa using hj) (by simpa using hj')
      · rw [firstMismatch?, if_neg huv] at h
        cases h

/-- Without a mismatch, lists of different lengths part where the shorter one ends. -/
theorem firstDifference_of_lengths (h : firstMismatch? xs ys = none)
    (hlen : xs.length ≠ ys.length) : FirstDifference xs ys (min xs.length ys.length) := by
  refine ⟨fun j hj => agree_of_no_mismatch h j (by omega) (by omega), ?_⟩
  rcases Nat.lt_or_gt_of_ne hlen with hlt | hgt
  · rw [Nat.min_eq_left (Nat.le_of_lt hlt), List.getElem?_eq_none (Nat.le_refl _),
      List.getElem?_eq_getElem hlt]
    exact (Option.some_ne_none _).symm
  · rw [Nat.min_eq_right (Nat.le_of_lt hgt), List.getElem?_eq_none (l := ys) (Nat.le_refl _),
      List.getElem?_eq_getElem hgt]
    exact Option.some_ne_none _

theorem eq_of_no_mismatch (h : firstMismatch? xs ys = none) (hlen : xs.length = ys.length) :
    xs = ys := by
  refine List.ext_getElem? fun j => ?_
  by_cases hj : j < xs.length
  · exact agree_of_no_mismatch h j hj (by omega)
  · rw [List.getElem?_eq_none (by omega), List.getElem?_eq_none (by omega)]

/-- Equal beginnings do not hide the first difference. -/
theorem firstMismatch?_append (hne : x ≠ y) (l xs ys : List α) :
    firstMismatch? (l ++ x :: xs) (l ++ y :: ys) = some (l.length, x, y) := by
  induction l with
  | nil => exact if_neg hne
  | cons z l ih => simp [firstMismatch?, ih]

end Lockstep
