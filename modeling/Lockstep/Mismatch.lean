/-! Where two lists first hold different elements. -/
namespace Lockstep

variable {α : Type} [DecidableEq α] {xs ys : List α}

/-- The first index at which both lists have an element and the elements
differ, with the two elements. A list that runs out first is no mismatch. -/
def firstMismatch? : List α → List α → Option (Nat × α × α)
  | x :: xs, y :: ys =>
    if x = y then (firstMismatch? xs ys).map fun (i, a, b) => (i + 1, a, b)
    else some (0, x, y)
  | _, _ => none

@[simp] theorem firstMismatch?_self (xs : List α) : firstMismatch? xs xs = none := by
  induction xs with
  | nil => rfl
  | cons x xs ih => simp [firstMismatch?, ih]

/-- Exchanging the lists exchanges the elements and keeps the index. -/
theorem firstMismatch?_swap (xs ys : List α) :
    firstMismatch? ys xs = (firstMismatch? xs ys).map fun (i, a, b) => (i, b, a) := by
  induction xs generalizing ys with
  | nil => cases ys <;> rfl
  | cons x xs ih =>
    cases ys with
    | nil => rfl
    | cons y ys =>
      by_cases h : x = y
      · simp [firstMismatch?, h, ih ys, Function.comp_def]
      · simp [firstMismatch?, h, Ne.symm h]

end Lockstep
