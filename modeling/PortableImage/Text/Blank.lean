import PortableImage.Text.CodePoints

/-!
# White space

The characters of the Unicode property `White_Space`, and text without them at either end.

* `isBlank` — the test.
* `trimChars` — a text without the blanks it begins and ends with.
-/

set_option autoImplicit false

namespace PortableImage.Text

/-- The code points of the property `White_Space`. -/
def blanks : CodePoints :=
  [(0x9, 0xd), (0x20, 0x20), (0x85, 0x85), (0xa0, 0xa0), (0x1680, 0x1680), (0x2000, 0x200a),
    (0x2028, 0x2029), (0x202f, 0x202f), (0x205f, 0x205f), (0x3000, 0x3000)]

/-- Whether `c` is white space. -/
def isBlank (c : Char) : Bool := blanks.contains c

/-- `s` without the blanks at its two ends. -/
def trimChars (s : List Char) : List Char :=
  ((s.dropWhile isBlank).reverse.dropWhile isBlank).reverse

example : [' ', '\t', '\n', '\r'].all isBlank = true := by decide +kernel

example : trimChars " 0X1f ".toList = "0X1f".toList := by decide +kernel

end PortableImage.Text
