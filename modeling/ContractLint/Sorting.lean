/-!
# Stable sorting

Insertion sort by a Boolean comparison. An element goes before the first one that is not smaller, so
elements that compare equal keep the order they came in.
-/

namespace ContractLint

variable {α : Type}

/-- Puts `a` before the first element it may precede. -/
def insertBy (le : α → α → Bool) (a : α) : List α → List α
  | [] => [a]
  | b :: l => if le a b then a :: b :: l else b :: insertBy le a l

/-- Sorts a list; elements that compare equal keep their order. -/
def sortBy (le : α → α → Bool) (l : List α) : List α := l.foldr (insertBy le) []

@[simp] theorem sortBy_nil (le : α → α → Bool) : sortBy le ([] : List α) = [] := rfl

@[simp] theorem sortBy_cons (le : α → α → Bool) (a : α) (l : List α) :
    sortBy le (a :: l) = insertBy le a (sortBy le l) := rfl

theorem insertBy_perm (le : α → α → Bool) (a : α) (l : List α) : (insertBy le a l).Perm (a :: l) := by
  induction l with
  | nil => exact .refl _
  | cons b l ih =>
    simp only [insertBy]
    split
    · exact .refl _
    · exact (ih.cons b).trans (.swap a b l)

/-- Sorting neither loses nor adds an element. -/
theorem sortBy_perm (le : α → α → Bool) (l : List α) : (sortBy le l).Perm l := by
  induction l with
  | nil => exact .refl _
  | cons a l ih => exact (insertBy_perm le a _).trans (ih.cons a)

end ContractLint
