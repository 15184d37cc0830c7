import PortableImage.Expr.Order

/-!
# Normal form of expressions

An expression is first read as a sum: a constant, and terms with coefficients.  A term is a label,
or a bitwise operation that still depends on a label.  Reading it back as an expression gives the
normal form: the positive terms in order, then the constant, then the negative terms taken away.

* `Linear` — the sums; `Expr.linear` reads one off an expression, `Linear.toExpr` writes it back.
* `Expr.reduce` — the normal form, the one after the other: matching labels cancel
  (`(a + 4) - a` becomes `4`) and what does not depend on a label is computed.
-/

set_option autoImplicit false

namespace PortableImage

/-- A sum: `constant`, and each term as often as its coefficient says.  The terms are ascending and
no coefficient is zero. -/
structure Linear where
  terms : List (Expr × LinkValue)
  constant : LinkValue
  deriving DecidableEq

namespace Linear

/-- The sum of a constant alone. -/
def ofConst (v : LinkValue) : Linear := ⟨[], v⟩

/-- The sum of one term alone. -/
def ofTerm (t : Expr) : Linear := ⟨[(t, 1)], 0⟩

/-- Adds `c` times the term `t` to a list of terms; a term whose coefficient becomes zero goes. -/
def addTerm (t : Expr) (c : LinkValue) : List (Expr × LinkValue) → List (Expr × LinkValue)
  | [] => [(t, c)]
  | (u, d) :: rest =>
    match t.cmp u with
    | .lt => (t, c) :: (u, d) :: rest
    | .eq => if d + c = 0 then rest else (u, d + c) :: rest
    | .gt => (u, d) :: addTerm t c rest

/-- The first sum and `sign` times the second. -/
def combine (a b : Linear) (sign : LinkValue) : Linear where
  terms := b.terms.foldl (fun ts (t, c) => addTerm t (c * sign) ts) a.terms
  constant := a.constant + b.constant * sign

/-- The constant a sum is, if it has no terms. -/
def constant? (a : Linear) : Option LinkValue :=
  match a.terms with
  | [] => some a.constant
  | _ :: _ => none

/-- The terms with a positive coefficient, each as often as that says. -/
def added (a : Linear) : List Expr :=
  a.terms.flatMap fun (t, c) => List.replicate c.toInt.toNat t

/-- The terms with a negative coefficient, each as often as that says. -/
def removed (a : Linear) : List Expr :=
  a.terms.flatMap fun (t, c) => List.replicate (-c.toInt).toNat t

/-- The positive terms and the constant.  A zero is written only where there is no such term. -/
def toExprAdded (a : Linear) : Expr :=
  match a.added with
  | [] => .const a.constant
  | t :: ts =>
    let sum := ts.foldl (· + ·) t
    if a.constant = 0 then sum else sum + .const a.constant

/-- A sum as an expression. -/
def toExpr (a : Linear) : Expr := a.removed.foldl (· - ·) a.toExprAdded

/-- `a | b`: computed for constants, and equal to the other side when one is zero. -/
def or (a b : Linear) : Linear :=
  match a.constant?, b.constant? with
  | some v, some w => ofConst (v ||| w)
  | some v, none => if v = 0 then b else ofTerm (a.toExpr ||| b.toExpr)
  | none, some w => if w = 0 then a else ofTerm (a.toExpr ||| b.toExpr)
  | none, none => ofTerm (a.toExpr ||| b.toExpr)

/-- `a & b`: computed for constants, and zero when one side is. -/
def and (a b : Linear) : Linear :=
  match a.constant?, b.constant? with
  | some v, some w => ofConst (v &&& w)
  | some v, none => if v = 0 then ofConst 0 else ofTerm (a.toExpr &&& b.toExpr)
  | none, some w => if w = 0 then ofConst 0 else ofTerm (a.toExpr &&& b.toExpr)
  | none, none => ofTerm (a.toExpr &&& b.toExpr)

end Linear

namespace Expr

/-- An expression read as a sum. -/
def linear : Expr → Linear
  | const v => .ofConst v
  | label name => .ofTerm (label name)
  | binary .add lhs rhs => lhs.linear.combine rhs.linear 1
  | binary .sub lhs rhs => lhs.linear.combine rhs.linear (-1)
  | binary .or lhs rhs => lhs.linear.or rhs.linear
  | binary .and lhs rhs => lhs.linear.and rhs.linear

/-- The normal form of an expression. -/
def reduce (e : Expr) : Expr := e.linear.toExpr

example : reduce ((label "a" + const 4) - label "a") = const 4 := by decide +kernel

example : reduce (const 3 - label "b" + label "a") = label "a" + const 3 - label "b" := by
  decide +kernel

example : reduce (const 0 - label "b") = const 0 - label "b" := by decide +kernel

end Expr

end PortableImage
