import Mathlib.Algebra.BigOperators.Group.List.Basic
import Mathlib.Data.BitVec
import Mathlib.Tactic.Ring
import PortableImage.Expr.Linear
import PortableImage.Proofs.Expr.Order

/-!
# Additive functions of sums

A sum is known by what functions that respect addition make of it: the value under an assignment is
one, the coefficient of a term is another.

* `Linear.total` — what a function gives for the terms, each as often as its coefficient says.
* `Linear.Additive` — the function respects sums and differences of expressions.
* `Linear.Additive.toExpr` — such a function does not see that a sum is written as an expression.
-/

set_option autoImplicit false

namespace PortableImage.Linear

variable (φ : Expr → LinkValue)

/-- What `φ` gives for the terms, each as often as its coefficient says. -/
def total (ts : List (Expr × LinkValue)) : LinkValue := (ts.map fun t => t.2 * φ t.1).sum

@[simp]
theorem total_nil : total φ [] = 0 := rfl

@[simp]
theorem total_cons (t : Expr) (c : LinkValue) (ts : List (Expr × LinkValue)) :
    total φ ((t, c) :: ts) = c * φ t + total φ ts := List.sum_cons

theorem total_addTerm (t : Expr) (c : LinkValue) (ts : List (Expr × LinkValue)) :
    total φ (addTerm t c ts) = c * φ t + total φ ts := by
  induction ts with
  | nil => rfl
  | cons u rest ih =>
    obtain ⟨u, d⟩ := u
    rw [addTerm]
    split
    · rfl
    · next h =>
      rw [Expr.eq_of_cmp h, total_cons]
      split
      · next hd => rw [← add_assoc, ← add_mul, add_comm c d, hd, zero_mul, zero_add]
      · rw [total_cons]
        ring
    · rw [total_cons, total_cons, ih]
      ring

theorem total_foldl_addTerm (sign : LinkValue) (ts acc : List (Expr × LinkValue)) :
    total φ (ts.foldl (fun us (t, c) => addTerm t (c * sign) us) acc) =
      total φ acc + total φ ts * sign := by
  induction ts generalizing acc with
  | nil => simp
  | cons u rest ih =>
    rw [List.foldl_cons, ih, total_addTerm, total_cons]
    ring

/-- A coefficient is how often its term is added less how often it is taken away. -/
theorem toInt_toNat_sub (c : LinkValue) :
    ((c.toInt.toNat : Nat) : LinkValue) - (((-c.toInt).toNat : Nat) : LinkValue) = c := by
  have h : ((c.toInt.toNat : Int) - ((-c.toInt).toNat : Int)) = c.toInt := by omega
  calc ((c.toInt.toNat : Nat) : LinkValue) - (((-c.toInt).toNat : Nat) : LinkValue)
      = (((c.toInt.toNat : Int) - ((-c.toInt).toNat : Int) : Int) : LinkValue) := by push_cast; rfl
    _ = ((c.toInt : Int) : LinkValue) := by rw [h]
    _ = c := BitVec.ofInt_toInt

theorem sum_added_sub_removed (a : Linear) :
    (a.added.map φ).sum - (a.removed.map φ).sum = total φ a.terms := by
  rw [added, removed]
  induction a.terms with
  | nil => simp
  | cons u rest ih =>
    obtain ⟨t, c⟩ := u
    simp only [List.flatMap_cons, List.map_append, List.map_replicate, List.sum_append,
      List.sum_replicate, nsmul_eq_mul, total_cons]
    rw [← ih]
    conv => rhs; rw [← toInt_toNat_sub c]
    ring

/-- The function takes sums to sums and differences to differences. -/
structure Additive : Prop where
  add : ∀ a b, φ (a + b) = φ a + φ b
  sub : ∀ a b, φ (a - b) = φ a - φ b
  zero : φ (.const 0) = 0

variable {φ} (h : Additive φ)
include h

theorem Additive.foldl_add (ts : List Expr) (e : Expr) :
    φ (ts.foldl (· + ·) e) = φ e + (ts.map φ).sum := by
  induction ts generalizing e with
  | nil => simp
  | cons t rest ih => rw [List.foldl_cons, ih, h.add, List.map_cons, List.sum_cons, add_assoc]

theorem Additive.foldl_sub (ts : List Expr) (e : Expr) :
    φ (ts.foldl (· - ·) e) = φ e - (ts.map φ).sum := by
  induction ts generalizing e with
  | nil => simp
  | cons t rest ih => rw [List.foldl_cons, ih, h.sub, List.map_cons, List.sum_cons, sub_sub]

theorem Additive.toExprAdded (a : Linear) :
    φ a.toExprAdded = φ (.const a.constant) + (a.added.map φ).sum := by
  rw [Linear.toExprAdded]
  split
  · next hnone => rw [hnone, List.map_nil, List.sum_nil, add_zero]
  · next t ts hsome =>
    rw [hsome, List.map_cons, List.sum_cons]
    split
    · next hz => rw [h.foldl_add, hz, h.zero, zero_add]
    · rw [h.add, h.foldl_add, add_comm]

/-- **An additive function of a sum as an expression is the sum of what it gives for the terms.** -/
theorem Additive.toExpr (a : Linear) : φ a.toExpr = φ (.const a.constant) + total φ a.terms := by
  rw [Linear.toExpr, h.foldl_sub, h.toExprAdded, ← sum_added_sub_removed]
  ring

end PortableImage.Linear
