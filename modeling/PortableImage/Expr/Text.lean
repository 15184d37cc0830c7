import PortableImage.Expr.Basic
import PortableImage.Text.Quoted

/-!
# Expressions in log lines

A log line shows an expression as the tree it is: `Constant(5)`, `Label("a")`,
`Binary(Add, Label("a"), Constant(5))`.
-/

set_option autoImplicit false

namespace PortableImage

/-- The operation in log lines. -/
def Op.text : Op → String
  | add => "Add"
  | sub => "Sub"
  | or => "Or"
  | and => "And"

/-- The expression in log lines. -/
def Expr.text : Expr → String
  | const v => "Constant(" ++ toString v.toInt ++ ")"
  | label name => "Label(" ++ Text.quoted name ++ ")"
  | binary op lhs rhs => "Binary(" ++ op.text ++ ", " ++ lhs.text ++ ", " ++ rhs.text ++ ")"

example : Expr.text (.label "a" - .const (-5)) = "Binary(Sub, Label(\"a\"), Constant(-5))" := by
  decide +kernel

end PortableImage
