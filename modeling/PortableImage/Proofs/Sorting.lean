import Mathlib.Data.List.Sort
import PortableImage.Sorting

/-!
# Sorted lists

The stable sort is insertion sort, so what is known of that holds for it.

* `pairwise_sortBy` — the elements are in order.
* `sublist_sortBy` — elements that are in order stay in the order they had.
* `StableOrder` — a list in order, in which what the order does not tell apart stays as it was;
  `stableOrder_sortBy` says that sorting gives it.
* `rel_or_rel_of_pairwise` — two elements of a list in order.
* `eq_of_perm_of_pairwise` — a list in order, of elements that the order tells apart.
* `bne_gt_total`, `bne_gt_trans` — a comparison is an order to sort by.
-/

set_option autoImplicit false

namespace PortableImage

variable {α : Type} {le : α → α → Bool}

theorem sortBy_eq_insertionSort (le : α → α → Bool) (l : List α) :
    sortBy le l = l.insertionSort fun a b => le a b := by
  have hinsert : ∀ (a : α) (m : List α),
      insertSorted le a m = m.orderedInsert (fun a b => le a b) a := by
    intro a m
    induction m with
    | nil => rfl
    | cons b rest ih => rw [insertSorted, List.orderedInsert_cons, ih]
  induction l with
  | nil => rfl
  | cons a rest ih => rw [sortBy, ih, hinsert, List.insertionSort_cons]

/-- Sorting by a linear preorder puts the elements in order. -/
theorem pairwise_sortBy (total : ∀ a b, le a b = true ∨ le b a = true)
    (trans : ∀ a b c, le a b = true → le b c = true → le a c = true) (l : List α) :
    (sortBy le l).Pairwise fun a b => le a b = true := by
  have : Std.Total fun a b => le a b = true := ⟨total⟩
  have : IsTrans α fun a b => le a b = true := ⟨trans⟩
  rw [sortBy_eq_insertionSort]
  exact List.pairwise_insertionSort _ _

/-- The sort is stable: elements that are in order already keep their order. -/
theorem sublist_sortBy (total : ∀ a b, le a b = true ∨ le b a = true)
    (trans : ∀ a b c, le a b = true → le b c = true → le a c = true) {l c : List α}
    (hc : c.Pairwise fun a b => le a b = true) (h : c.Sublist l) : c.Sublist (sortBy le l) := by
  have : Std.Total fun a b => le a b = true := ⟨total⟩
  have : IsTrans α fun a b => le a b = true := ⟨trans⟩
  rw [sortBy_eq_insertionSort]
  exact List.sublist_insertionSort hc h

/-- The second list has the elements of the first in order; elements that are in order already stay
as they were. -/
structure StableOrder {α : Type} (le : α → α → Bool) (l ordered : List α) : Prop where
  perm : ordered.Perm l
  inOrder : ordered.Pairwise fun a b => le a b = true
  stable : ∀ c : List α, (c.Pairwise fun a b => le a b = true) → c.Sublist l → c.Sublist ordered

theorem stableOrder_sortBy (total : ∀ a b, le a b = true ∨ le b a = true)
    (trans : ∀ a b c, le a b = true → le b c = true → le a c = true) (l : List α) :
    StableOrder le l (sortBy le l) :=
  ⟨perm_sortBy le l, pairwise_sortBy total trans l, fun _ hc h => sublist_sortBy total trans hc h⟩

/-! ## Elements of a list in order -/

/-- Of the elements at two places of a list whose elements are related in order, one is related to the
other. -/
theorem rel_or_rel_of_getElem? {R : α → α → Prop} {l : List α} (h : l.Pairwise R) {i j : Nat}
    {x y : α} (hx : l[i]? = some x) (hy : l[j]? = some y) (hne : i ≠ j) : R x y ∨ R y x := by
  obtain ⟨hi, rfl⟩ := List.getElem?_eq_some_iff.1 hx
  obtain ⟨hj, rfl⟩ := List.getElem?_eq_some_iff.1 hy
  rcases Nat.lt_or_gt_of_ne hne with hlt | hlt
  · exact .inl (List.pairwise_iff_getElem.1 h i j hi hj hlt)
  · exact .inr (List.pairwise_iff_getElem.1 h j i hj hi hlt)

theorem rel_or_rel_of_pairwise {R : α → α → Prop} {l : List α} (h : l.Pairwise R) {x y : α}
    (hx : x ∈ l) (hy : y ∈ l) (hne : x ≠ y) : R x y ∨ R y x := by
  obtain ⟨i, hi⟩ := List.mem_iff_getElem?.1 hx
  obtain ⟨j, hj⟩ := List.mem_iff_getElem?.1 hy
  refine rel_or_rel_of_getElem? h hi hj fun hij => hne ?_
  rw [hij, hj, Option.some.injEq] at hi
  exact hi.symm

/-- A list in an order that tells its elements apart is determined by its elements. -/
theorem eq_of_perm_of_pairwise {β : Type} (key : α → β)
    (antisymm : ∀ a b, le a b = true → le b a = true → key a = key b) {l l' : List α}
    (hkeys : (l.map key).Nodup) (h : l.Perm l') (hl : l.Pairwise fun a b => le a b = true)
    (hl' : l'.Pairwise fun a b => le a b = true) : l = l' := by
  refine h.eq_of_pairwise (fun a b ha hb hab hba => ?_) hl hl'
  exact List.inj_on_of_nodup_map hkeys ha (h.mem_iff.2 hb) (antisymm a b hab hba)

/-! ## Orders given by a comparison -/

theorem bne_gt_iff_isLE (o : Ordering) : (o != .gt) = true ↔ o.isLE = true := by
  cases o <;> decide

theorem bne_gt_total (cmp : α → α → Ordering) [Std.OrientedCmp cmp] (a b : α) :
    (cmp a b != .gt) = true ∨ (cmp b a != .gt) = true := by
  have hswap : cmp b a = (cmp a b).swap := Std.OrientedCmp.eq_swap
  rw [hswap]
  cases cmp a b <;> decide

theorem bne_gt_trans (cmp : α → α → Ordering) [Std.TransCmp cmp] (a b c : α)
    (hab : (cmp a b != .gt) = true)
    (hbc : (cmp b c != .gt) = true) : (cmp a c != .gt) = true := by
  rw [bne_gt_iff_isLE] at *
  exact Std.TransCmp.isLE_trans hab hbc

end PortableImage
