import PortableImage.Proofs.Binding
import PortableImage.Proofs.Expr.Normal

/-!
# Constants under a binding

Whether a binding makes an expression a constant, and which one, does not depend on whether the
expression was reduced before.

* `Expr.constantUnder_reduce` — a normal form becomes the same constant as the expression.
* `Expr.constantUnder_of_known` — with all its labels bound to constants it becomes its value.
* `Expr.constantUnder_of_unknown` — with none of them bound it is what it is.
* `Expr.constantUnder_extends` — a constant remains one when more labels are bound.
-/

set_option autoImplicit false

namespace PortableImage.Expr

theorem subst_none (e : Expr) : e.subst (fun _ => none) = e := by
  induction e with
  | const | label => rfl
  | binary op lhs rhs ihl ihr => rw [subst, ihl, ihr]

/-- A normal form is read as the sum that it was written for. -/
theorem linear_reduce (e : Expr) : e.reduce.linear = e.linear := by
  have h := linear_subst_reduce (fun _ => none) e
  rwa [subst_none, subst_none] at h

/-- Replacing labels sees the sum of an expression only. -/
theorem linear_subst_congr {e f : Expr} (h : e.linear = f.linear) (σ : String → Option Expr) :
    (e.subst σ).linear = (f.subst σ).linear := by
  rw [← linear_subst_reduce, reduce, h, ← reduce, linear_subst_reduce]

/-- An expression reduces to a constant exactly when its sum is one. -/
theorem constant?_reduce (e : Expr) : e.reduce.constant? = e.linear.constant? := by
  cases h : e.linear.constant? with
  | some v =>
    rw [reduce, Linear.constant?_eq_some.1 h]
    rfl
  | none =>
    rw [Option.eq_none_iff_forall_ne_some]
    intro v hv
    -- a reduced constant is read as a sum of a constant alone
    have hlinear := linear_reduce e
    rw [constant?_eq_some.1 hv] at hlinear
    rw [← hlinear] at h
    cases h

theorem constantUnder_eq (e : Expr) (b : Binding) :
    e.constantUnder b = (e.bind b).linear.constant? :=
  constant?_reduce _

/-- A normal form becomes the same constant as the expression. -/
theorem constantUnder_reduce (e : Expr) (b : Binding) :
    e.reduce.constantUnder b = e.constantUnder b := by
  rw [constantUnder, constantUnder, bind, bind, reduce_subst_reduce]

theorem constantUnder_const (v : LinkValue) (b : Binding) :
    (const v).constantUnder b = some v := rfl

theorem constantUnder_or {a c : Expr} {b : Binding} {v w : LinkValue}
    (ha : a.constantUnder b = some v) (hc : c.constantUnder b = some w) :
    (a ||| c).constantUnder b = some (v ||| w) := by
  rw [constantUnder_eq] at ha hc ⊢
  show ((a.bind b).linear.or (c.bind b).linear).constant? = _
  rw [Linear.or, ha, hc]
  rfl

section Known

variable {b : Binding}

/-- **An expression with all its labels bound to constants becomes its value.** -/
theorem constantUnder_of_known (hb : b.Constant) {e : Expr}
    (h : ∀ l ∈ e.labelLeaves, (b.get? l).isSome) : e.constantUnder b = some (e.eval b.env) := by
  suffices hlinear : (e.bind b).linear = Linear.ofConst (e.eval b.env) by
    rw [constantUnder_eq, hlinear]
    rfl
  rw [bind]
  induction e with
  | const v => rfl
  | label l =>
    obtain ⟨value, hvalue⟩ := Option.isSome_iff_exists.1 (h l (List.mem_singleton.2 rfl))
    obtain ⟨v, rfl⟩ := hb l value hvalue
    rw [subst, hvalue, eval, Binding.env_of_get? hvalue]
    rfl
  | binary op lhs rhs ihl ihr =>
    have hl := ihl fun l hl => h l (List.mem_append_left _ hl)
    have hr := ihr fun l hl => h l (List.mem_append_right _ hl)
    cases op with
    | add =>
      rw [subst, linear, hl, hr, eval]
      show Linear.mk [] (_ + _ * 1) = _
      rw [mul_one]
      rfl
    | sub =>
      rw [subst, linear, hl, hr, eval]
      show Linear.mk [] (_ + _ * (-1)) = _
      rw [mul_neg_one, ← sub_eq_add_neg]
      rfl
    | or =>
      rw [subst, linear, hl, hr]
      rfl
    | and =>
      rw [subst, linear, hl, hr]
      rfl

/-- An expression with none of its labels bound is what it is. -/
theorem constantUnder_of_unknown {e : Expr} (h : ∀ l ∈ e.labelLeaves, b.get? l = none) :
    e.constantUnder b = e.reduce.constant? := by
  suffices hsubst : e.bind b = e by rw [constantUnder, hsubst]
  rw [bind]
  induction e with
  | const v => rfl
  | label l =>
    rw [subst, h l (List.mem_singleton.2 rfl)]
    rfl
  | binary op lhs rhs ihl ihr =>
    rw [subst, ihl fun l hl => h l (List.mem_append_left _ hl),
      ihr fun l hl => h l (List.mem_append_right _ hl)]

end Known

/-- What is a constant under a binding is the same constant under one that binds more. -/
theorem constantUnder_extends {b b' : Binding} (hb : b.Constant) (h : b.Extends b') {e : Expr}
    {v : LinkValue} (hv : e.constantUnder b = some v) : e.constantUnder b' = some v := by
  -- the further labels may be replaced after those of the first binding
  have hsubst : ∀ e : Expr, (e.subst b.get?).subst b'.get? = e.subst b'.get? := by
    intro e
    induction e with
    | const v => rfl
    | label l =>
      rw [subst, subst]
      cases hl : b.get? l with
      | none => rfl
      | some value =>
        obtain ⟨w, rfl⟩ := hb l value hl
        rw [h l _ hl]
        rfl
    | binary op lhs rhs ihl ihr => rw [subst, subst, ihl, ihr, subst]
  rw [constantUnder, bind] at hv
  rw [constantUnder, bind, ← hsubst, ← reduce_subst_reduce, constant?_eq_some.1 hv]
  rfl

end PortableImage.Expr
