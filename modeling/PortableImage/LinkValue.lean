/-!
# Link values

Every number the linker computes with is a 128-bit word read in two's complement: wide enough for
any sum of 64-bit addresses and sizes, and wrapping beyond that.  `BitVec 128` is used directly, so
its ring structure and its bitwise operations are those of the words.

* `LinkValue` — the words.
* `LinkValue.ofSize` — a size, an offset or an address as a word.
-/

set_option autoImplicit false

namespace PortableImage

/-- A number of the linker: a 128-bit word, negative when its top bit is set. -/
abbrev LinkValue := BitVec 128

namespace LinkValue

/-- The word of a size, an offset or an address. -/
def ofSize (n : Nat) : LinkValue := BitVec.ofNat 128 n

end LinkValue

end PortableImage
