import Mathlib.Data.BitVec
import PortableImage.Expr.Order

/-!
# The order of terms

The terms of a sum are in one order.  It tells different expressions apart, and it is linear, so the
terms of two equal sums are listed alike.

* `Expr.eq_of_cmp` — only equal expressions are level.
* `Expr.cmp_swap`, `Expr.lt_trans` — the order is linear.
-/

set_option autoImplicit false

namespace PortableImage

theorem Op.rank_injective {a b : Op} (h : a.rank = b.rank) : a = b := by
  cases a <;> cases b <;> first | rfl | exact absurd h (by decide)

/-- Only equal expressions are level in the order of terms. -/
theorem Expr.eq_of_cmp {a b : Expr} (h : a.cmp b = .eq) : a = b := by
  induction a generalizing b with
  | const v =>
    cases b with
    | const w => exact congrArg const (BitVec.eq_of_toInt_eq (Std.LawfulEqCmp.eq_of_compare h))
    | label | binary => exact absurd h (by simp [cmp])
  | label name =>
    cases b with
    | label other => exact congrArg label (Std.LawfulEqCmp.eq_of_compare h)
    | const | binary => exact absurd h (by simp [cmp])
  | binary op l r ihl ihr =>
    cases b with
    | binary op' l' r' =>
      rw [cmp, Ordering.then_eq_eq, Ordering.then_eq_eq] at h
      rw [Op.rank_injective (Std.LawfulEqCmp.eq_of_compare h.1), ihl h.2.1, ihr h.2.2]
    | const | label => exact absurd h (by simp [cmp])

namespace Expr

theorem compare_swap {α : Type} [Ord α] [Std.OrientedOrd α] (a b : α) :
    compare b a = (compare a b).swap := Std.OrientedCmp.eq_swap

/-- Turning a comparison around turns its result around. -/
theorem cmp_swap (a b : Expr) : b.cmp a = (a.cmp b).swap := by
  induction a generalizing b with
  | const v =>
    cases b with
    | const w => exact compare_swap v.toInt w.toInt
    | label | binary => rfl
  | label name =>
    cases b with
    | label other => exact compare_swap name other
    | const | binary => rfl
  | binary op l r ihl ihr =>
    cases b with
    | binary op' l' r' =>
      rw [cmp, cmp, ihl, ihr, Ordering.swap_then, Ordering.swap_then, ← compare_swap op.rank op'.rank]
    | const | label => rfl

instance : Std.OrientedCmp cmp := ⟨cmp_swap _ _⟩

theorem cmp_self (a : Expr) : a.cmp a = .eq := Std.ReflCmp.compare_self

theorem lt_trans {a b c : Expr} (hab : a.cmp b = .lt) (hbc : b.cmp c = .lt) : a.cmp c = .lt := by
  induction a generalizing b c with
  | const u =>
    cases b with
    | const v =>
      cases c with
      | const w =>
        change compare _ _ = Ordering.lt at hab hbc
        exact (Std.TransCmp.lt_trans hab hbc : compare _ _ = Ordering.lt)
      | label | binary => rfl
    | label | binary =>
      cases c with
      | const w => exact nomatch hbc
      | label | binary => rfl
  | label name =>
    cases b with
    | const v => exact nomatch hab
    | label other =>
      cases c with
      | const w => exact nomatch hbc
      | label third =>
        change compare _ _ = Ordering.lt at hab hbc
        exact (Std.TransCmp.lt_trans hab hbc : compare _ _ = Ordering.lt)
      | binary => rfl
    | binary =>
      cases c with
      | const | label => exact nomatch hbc
      | binary => rfl
  | binary op l r ihl ihr =>
    cases b with
    | const | label => exact nomatch hab
    | binary op' l' r' =>
      cases c with
      | const | label => exact nomatch hbc
      | binary op'' l'' r'' =>
        rw [cmp, Ordering.then_eq_lt, Ordering.then_eq_lt] at hab hbc ⊢
        rcases hab with hab | ⟨hop, hab⟩
        · rcases hbc with hbc | ⟨hop', -⟩
          · exact .inl (Std.TransCmp.lt_trans hab hbc)
          · rw [← Std.LawfulEqCmp.eq_of_compare hop']
            exact .inl hab
        · rw [Std.LawfulEqCmp.eq_of_compare hop]
          refine hbc.imp_right fun ⟨hop', hbc⟩ => ⟨hop', ?_⟩
          rcases hab with hab | ⟨hl, hab⟩
          · rcases hbc with hbc | ⟨hl', -⟩
            · exact .inl (ihl hab hbc)
            · rw [← eq_of_cmp hl']
              exact .inl hab
          · rw [eq_of_cmp hl]
            exact hbc.imp_right fun ⟨hl', hbc⟩ => ⟨hl', ihr hab hbc⟩

end Expr

end PortableImage
