import Mathlib.Algebra.BigOperators.Group.List.Basic
import Mathlib.Data.BitVec
import Mathlib.Tactic.Ring
import PortableImage.Binding
import PortableImage.Proofs.Expr.Total

/-!
# The value of a normal form

Reducing an expression keeps its value, whatever words the labels stand for.  So a field that
becomes constant under a binding holds the value of its expression.

* `Linear.eval` — the value of a sum.
* `Expr.eval_reduce` — an expression and its normal form have the same value.
* `Binding.Agrees` — an assignment of words to labels gives every bound label its value.
* `Expr.eval_of_constantUnder` — the constant that an expression becomes under a binding is its
  value under every assignment that agrees with the binding.
-/

set_option autoImplicit false

namespace PortableImage

/-! ## Sums -/

namespace Linear

variable (env : String → LinkValue)

/-- The value of one term with its coefficient. -/
def evalTerm (t : Expr × LinkValue) : LinkValue := t.2 * t.1.eval env

/-- The value of a sum. -/
def eval (a : Linear) : LinkValue := a.constant + (a.terms.map (evalTerm env)).sum

@[simp]
theorem eval_ofConst (v : LinkValue) : (ofConst v).eval env = v := by
  simp [eval, ofConst]

@[simp]
theorem eval_ofTerm (t : Expr) : (ofTerm t).eval env = t.eval env := by
  simp [eval, ofTerm, evalTerm]

theorem eval_combine (a b : Linear) (sign : LinkValue) :
    (a.combine b sign).eval env = a.eval env + b.eval env * sign := by
  show (a.combine b sign).constant + total (Expr.eval env) (a.combine b sign).terms =
    (a.constant + total (Expr.eval env) a.terms) + (b.constant + total (Expr.eval env) b.terms) * sign
  rw [combine, total_foldl_addTerm]
  ring

/-- The value under an assignment respects sums and differences. -/
theorem additive_eval : Additive (Expr.eval env) := ⟨fun _ _ => rfl, fun _ _ => rfl, rfl⟩

theorem eval_toExpr (a : Linear) : a.toExpr.eval env = a.eval env :=
  (additive_eval env).toExpr a

theorem eval_of_constant? {a : Linear} {v : LinkValue} (h : a.constant? = some v) :
    a.eval env = v := by
  obtain ⟨terms, c⟩ := a
  cases terms with
  | nil => simpa [eval] using Option.some.inj h
  | cons => exact absurd h (by simp [constant?])

/-! ## Bitwise operations on sums -/

theorem eval_or (a b : Linear) : (a.or b).eval env = a.eval env ||| b.eval env := by
  have term : (ofTerm (a.toExpr ||| b.toExpr)).eval env = a.eval env ||| b.eval env := by
    rw [eval_ofTerm, ← eval_toExpr, ← eval_toExpr]
    rfl
  rw [or]
  split
  · next ha hb => rw [eval_ofConst, eval_of_constant? env ha, eval_of_constant? env hb]
  · next ha _ =>
    split
    · next hz => rw [eval_of_constant? env ha, hz]; simp
    · exact term
  · next _ hb =>
    split
    · next hz => rw [eval_of_constant? env hb, hz]; simp
    · exact term
  · exact term

theorem eval_and (a b : Linear) : (a.and b).eval env = a.eval env &&& b.eval env := by
  have term : (ofTerm (a.toExpr &&& b.toExpr)).eval env = a.eval env &&& b.eval env := by
    rw [eval_ofTerm, ← eval_toExpr, ← eval_toExpr]
    rfl
  rw [and]
  split
  · next ha hb => rw [eval_ofConst, eval_of_constant? env ha, eval_of_constant? env hb]
  · next ha _ =>
    split
    · next hz => rw [eval_of_constant? env ha, hz]; simp
    · exact term
  · next _ hb =>
    split
    · next hz => rw [eval_of_constant? env hb, hz]; simp
    · exact term
  · exact term

end Linear

namespace Expr

variable (env : String → LinkValue)

theorem eval_linear (e : Expr) : e.linear.eval env = e.eval env := by
  induction e with
  | const v => exact Linear.eval_ofConst env v
  | label name => exact Linear.eval_ofTerm env _
  | binary op lhs rhs ihl ihr =>
    cases op with
    | add => rw [linear, Linear.eval_combine, ihl, ihr, mul_one]; rfl
    | sub => rw [linear, Linear.eval_combine, ihl, ihr, mul_neg_one, ← sub_eq_add_neg]; rfl
    | or => rw [linear, Linear.eval_or, ihl, ihr]; rfl
    | and => rw [linear, Linear.eval_and, ihl, ihr]; rfl

/-- **Reducing keeps the value.** -/
theorem eval_reduce (e : Expr) : e.reduce.eval env = e.eval env := by
  rw [reduce, Linear.eval_toExpr, eval_linear]

end Expr

/-! ## Values under a binding -/

/-- Every bound label stands for the value it is bound to. -/
def Binding.Agrees (b : Binding) (env : String → LinkValue) : Prop :=
  ∀ name value, b.get? name = some value → value.eval env = env name

namespace Expr

variable {env : String → LinkValue}

theorem eval_bind {b : Binding} (h : b.Agrees env) (e : Expr) :
    (e.bind b).eval env = e.eval env := by
  rw [bind, eval_subst]
  congr 1
  funext name
  cases hn : b.get? name with
  | none => rfl
  | some value => exact h name value hn

theorem constant?_eq_some {e : Expr} {v : LinkValue} : e.constant? = some v ↔ e = const v := by
  cases e <;> simp [constant?]

/-- A label without a value is no constant. -/
theorem constantUnder_label {b : Binding} {l : String} (h : b.get? l = none) :
    (label l).constantUnder b = none := by
  rw [constantUnder, bind, subst, h]
  rfl

/-- What becomes a constant under a binding has that constant as its value. -/
theorem eval_of_constantUnder {b : Binding} (h : b.Agrees env) {e : Expr} {v : LinkValue}
    (hv : e.constantUnder b = some v) : e.eval env = v := by
  rw [← eval_bind h, ← eval_reduce, constant?_eq_some.1 hv]
  rfl

end Expr

end PortableImage
