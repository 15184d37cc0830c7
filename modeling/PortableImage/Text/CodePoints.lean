/-!
# Sets of code points

A set of characters is a list of inclusive ranges of code points, as the tables of the Unicode
character database give them.
-/

set_option autoImplicit false

namespace PortableImage.Text

/-- A set of characters, as inclusive ranges of code points. -/
abbrev CodePoints := List (Nat × Nat)

/-- Whether `c` lies in one of the ranges. -/
def CodePoints.contains (s : CodePoints) (c : Char) : Bool :=
  s.any fun r => r.1 ≤ c.toNat && c.toNat ≤ r.2

end PortableImage.Text
