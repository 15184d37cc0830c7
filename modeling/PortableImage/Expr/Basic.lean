import PortableImage.LinkValue

/-!
# Deferred values

The value of a field is often not known when the field is written: it depends on where things end up
in the image.  It is kept as an expression over constants and named labels.

* `Expr` — the expressions; `Expr.labels` lists the labels in one, `Expr.leaves` counts its leaves.
* `Expr.eval` — the value of an expression once every label has one; all arithmetic is on 128-bit
  words and wraps.
* `Expr.subst` — puts expressions in place of labels; `Expr.eval_subst` says what that means.
-/

set_option autoImplicit false

namespace PortableImage

/-- The four operations on deferred values. -/
inductive Op
  | add
  | sub
  | or
  | and
  deriving DecidableEq

/-- The operation on words. -/
def Op.apply : Op → LinkValue → LinkValue → LinkValue
  | add, a, b => a + b
  | sub, a, b => a - b
  | or, a, b => a ||| b
  | and, a, b => a &&& b

/-- A value that may depend on labels. -/
inductive Expr
  | const (value : LinkValue)
  | label (name : String)
  | binary (op : Op) (lhs rhs : Expr)
  deriving DecidableEq

namespace Expr

instance : Inhabited Expr := ⟨const 0⟩

instance : Add Expr := ⟨binary .add⟩

instance : Sub Expr := ⟨binary .sub⟩

instance : OrOp Expr := ⟨binary .or⟩

instance : AndOp Expr := ⟨binary .and⟩

/-- A size, an offset or an address as an expression. -/
def ofSize (n : Nat) : Expr := const (LinkValue.ofSize n)

/-- The constant an expression is, if it is one. -/
def constant? : Expr → Option LinkValue
  | const v => some v
  | _ => none

/-- The label an expression is, if it is one. -/
def label? : Expr → Option String
  | label name => some name
  | _ => none

/-- The labels at the leaves, from left to right. -/
def labelLeaves : Expr → List String
  | const _ => []
  | label name => [name]
  | binary _ lhs rhs => lhs.labelLeaves ++ rhs.labelLeaves

/-- The labels of an expression, each once, in the order they are first met. -/
def labels (e : Expr) : List String := e.labelLeaves.eraseDups

/-- How many leaves an expression has. -/
def leaves : Expr → Nat
  | const _ | label _ => 1
  | binary _ lhs rhs => lhs.leaves + rhs.leaves

/-- The value of an expression under an assignment of words to labels. -/
def eval (env : String → LinkValue) : Expr → LinkValue
  | const v => v
  | label name => env name
  | binary op lhs rhs => op.apply (lhs.eval env) (rhs.eval env)

/-- Puts `σ name` in place of each label `name` for which there is one. -/
def subst (σ : String → Option Expr) : Expr → Expr
  | const v => const v
  | label name => (σ name).getD (label name)
  | binary op lhs rhs => binary op (lhs.subst σ) (rhs.subst σ)

/-- Replacing labels is the same as assigning them the values of what replaces them. -/
theorem eval_subst (env : String → LinkValue) (σ : String → Option Expr) (e : Expr) :
    (e.subst σ).eval env = e.eval fun name => ((σ name).getD (label name)).eval env := by
  induction e with
  | const v => rfl
  | label name => rfl
  | binary op lhs rhs ihl ihr => simp [subst, eval, ihl, ihr]

end Expr

end PortableImage
