/-!
# Sorting

A stable sort: what the order does not tell apart stays in the order it had.

* `insertSorted` — an element in front of the first one that it may stand before.
* `sortBy` — the elements inserted from the last to the first.
-/

set_option autoImplicit false

namespace PortableImage

variable {α : Type}

/-- Puts `a` in front of the first element that it may stand before. -/
def insertSorted (le : α → α → Bool) (a : α) : List α → List α
  | [] => [a]
  | b :: rest => if le a b then a :: b :: rest else b :: insertSorted le a rest

/-- The elements in the order `le`; those that it does not tell apart stay as they were. -/
def sortBy (le : α → α → Bool) : List α → List α
  | [] => []
  | a :: rest => insertSorted le a (sortBy le rest)

theorem perm_insertSorted (le : α → α → Bool) (a : α) (l : List α) :
    (insertSorted le a l).Perm (a :: l) := by
  induction l with
  | nil => exact .refl _
  | cons b rest ih =>
    simp only [insertSorted]
    split
    · exact .refl _
    · exact (ih.cons b).trans (.swap a b rest)

/-- Sorting loses nothing and adds nothing. -/
theorem perm_sortBy (le : α → α → Bool) (l : List α) : (sortBy le l).Perm l := by
  induction l with
  | nil => exact .refl _
  | cons a rest ih => exact (perm_insertSorted le a _).trans (ih.cons a)

/-- Carries a state along a list: the results in order, and the last state. -/
def mapState {β σ : Type} (f : α → σ → β × σ) : List α → σ → List β × σ
  | [], s => ([], s)
  | a :: rest, s =>
    let (b, s) := f a s
    let (bs, s) := mapState f rest s
    (b :: bs, s)

end PortableImage
