/-!
# Rounding up

Sizes, file positions and addresses are rounded up to multiples of an alignment, which is a power of
two wherever it comes from a header.  Both routines clear the low bits with the mask
`alignment - 1`.

* `alignSize` — a size; an alignment of zero or one leaves it.
* `alignAddress` — a 64-bit address; the sum stops at the largest one.
-/

set_option autoImplicit false

namespace PortableImage

/-- `n` without the bits of `mask`. -/
def clearBits (n mask : Nat) : Nat := n - (n &&& mask)

/-- The size `n` rounded up to the boundary. -/
def alignSize (n boundary : Nat) : Nat :=
  if boundary ≤ 1 then n else clearBits (n + (boundary - 1)) (boundary - 1)

/-- The largest address. -/
def maxAddress : Nat := UInt64.size - 1

/-- The address `n` rounded up to the alignment. -/
def alignAddress (n alignment : Nat) : Nat :=
  clearBits (min (n + (alignment - 1)) maxAddress) (alignment - 1)

example : alignSize 9 8 = 16 ∧ alignSize 16 8 = 16 ∧ alignSize 9 0 = 9 := by decide

example : alignAddress 5 3 = 5 ∧ alignAddress maxAddress 0x1000 = 0xfffffffffffff000 := by
  decide +kernel

end PortableImage
