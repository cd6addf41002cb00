/-!
# Stable sorting

`sortBy` sorts a list by insertion. It only rearranges (`sortBy_perm`), and elements that tie keep
their order.
-/

namespace AlgebraicForm

/-- Inserts before the first element that does not come strictly before `x`. -/
def insertBy {α : Type} (le : α → α → Bool) (x : α) : List α → List α
  | [] => [x]
  | y :: ys => if le x y then x :: y :: ys else y :: insertBy le x ys

/-- Sorts a list; elements that tie keep their order. -/
def sortBy {α : Type} (le : α → α → Bool) (xs : List α) : List α :=
  xs.foldr (insertBy le) []

/-- Inserting permutes. -/
theorem insertBy_perm {α : Type} (le : α → α → Bool) (x : α) (xs : List α) :
    (insertBy le x xs).Perm (x :: xs) := by
  induction xs with
  | nil => exact .refl _
  | cons y ys ih =>
    unfold insertBy
    split
    · exact .refl _
    · exact (ih.cons y).trans (.swap x y ys)

/-- Sorting permutes. -/
theorem sortBy_perm {α : Type} (le : α → α → Bool) (xs : List α) : (sortBy le xs).Perm xs := by
  induction xs with
  | nil => exact .refl _
  | cons x xs ih => exact (insertBy_perm le x _).trans (ih.cons x)

end AlgebraicForm
