/-!
# Sorting values that may not be comparable

`sort? lt` sorts a list stably by a strict order under which two values may be incomparable. It
answers only if every two items of the list can be compared. A sort that compares fewer pairs finds out
no later than that, as long as what can be compared is in order: neighbours in the result have to be
compared. Sets are not in order, though, since of two sets neither need be below the other. A list of
tuples that hold sets may be sorted by such a sort without comparing two that cannot be compared.
-/

namespace EpsilonAutomata.Sorting

variable {α : Type}

/-- Puts a value before the first item that is not below it. -/
def insertBy (before : α → α → Bool) (x : α) : List α → List α
  | [] => [x]
  | y :: ys => if before y x then y :: insertBy before x ys else x :: y :: ys

/-- The list in ascending order; items of which neither is below the other keep their order. -/
def sortBy (before : α → α → Bool) : List α → List α
  | [] => []
  | x :: xs => insertBy before x (sortBy before xs)

/-- Every two items of the list can be compared. -/
def allComparable (lt : α → α → Option Bool) : List α → Bool
  | [] => true
  | x :: xs => xs.all (fun y => (lt x y).isSome) && allComparable lt xs

/-- The list in ascending order, if every two of its items can be compared. It is refused as soon as two
of them cannot, whether or not their order is needed. -/
def sort? (lt : α → α → Option Bool) (xs : List α) : Option (List α) :=
  if allComparable lt xs then some (sortBy (fun a b => lt a b == some true) xs) else none

/-! ## Laws -/

theorem insertBy_perm (before : α → α → Bool) (x : α) (ys : List α) :
    (insertBy before x ys).Perm (x :: ys) := by
  induction ys with
  | nil => exact .refl _
  | cons y ys ih =>
    rw [insertBy]
    split
    · exact (ih.cons y).trans (.swap x y ys)
    · exact .refl _

theorem sortBy_perm (before : α → α → Bool) (xs : List α) : (sortBy before xs).Perm xs := by
  induction xs with
  | nil => exact .refl _
  | cons x xs ih => exact (insertBy_perm before x _).trans (ih.cons x)

theorem allComparable_iff (lt : α → α → Option Bool) (xs : List α) :
    allComparable lt xs = true ↔ xs.Pairwise fun a b => (lt a b).isSome = true := by
  induction xs with
  | nil => simp [allComparable]
  | cons x xs ih => simp [allComparable, ih]

/-- A list can be sorted exactly when every two of its items can be compared. -/
theorem sort?_isSome_iff (lt : α → α → Option Bool) (xs : List α) :
    (sort? lt xs).isSome = true ↔ xs.Pairwise fun a b => (lt a b).isSome = true := by
  rw [← allComparable_iff, sort?]
  split <;> simp_all

theorem perm_of_sort? {lt : α → α → Option Bool} {xs ys : List α} (h : sort? lt xs = some ys) :
    ys.Perm xs := by
  unfold sort? at h
  split at h
  · cases h
    exact sortBy_perm _ xs
  · cases h

end EpsilonAutomata.Sorting
