import PortableImage.Expr.Basic

/-!
# The order of expressions

The terms of a sum are kept in one fixed order, so that equal sums come out equal: constants by
their value, then labels by their bytes, then compound expressions by operation, left side and right
side.  The order of texts is that of their characters, which for UTF-8 is that of their bytes.
-/

set_option autoImplicit false

namespace PortableImage

/-- The place of an operation in the order. -/
def Op.rank : Op → Nat
  | add => 0
  | sub => 1
  | or => 2
  | and => 3

namespace Expr

/-- The order of expressions. -/
def cmp : Expr → Expr → Ordering
  | const a, const b => compare a.toInt b.toInt
  | const _, _ => .lt
  | label _, const _ => .gt
  | label a, label b => compare a b
  | label _, binary .. => .lt
  | binary op l r, binary op' l' r' =>
    (compare op.rank op'.rank).then ((l.cmp l').then (r.cmp r'))
  | binary .., _ => .gt

end Expr

end PortableImage
