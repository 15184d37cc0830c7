import PortableImage.Error

/-!
# Values of fields

A value is written into a field of its type exactly when it lies in the type's range; nothing is
ever cut off.  Reading takes the bytes back to the value.

* `littleEndian`, `ofLittleEndian` — a number as bytes, least significant first, and back.
* `FieldType.encodeValue` — the bytes of a value, or the overflow error that carries it.
* `FieldType.decodeValue` — the value of the bytes of a field.
-/

set_option autoImplicit false

namespace PortableImage

/-- The `width` low bytes of `n`, the least significant first. -/
def littleEndian : (width n : Nat) → List UInt8
  | 0, _ => []
  | width + 1, n => UInt8.ofNat n :: littleEndian width (n / 256)

/-- The number whose bytes, the least significant first, are `bytes`. -/
def ofLittleEndian : (bytes : List UInt8) → Nat
  | [] => 0
  | b :: rest => b.toNat + 256 * ofLittleEndian rest

@[simp]
theorem length_littleEndian (width n : Nat) : (littleEndian width n).length = width := by
  induction width generalizing n with
  | zero => rfl
  | succ width ih => simp [littleEndian, ih]

namespace ByteOrder

/-- Turns bytes given least significant first into this order, and back. -/
def arrange : ByteOrder → List UInt8 → List UInt8
  | little, bytes => bytes
  | big, bytes => bytes.reverse

@[simp]
theorem arrange_arrange (o : ByteOrder) (bytes : List UInt8) :
    o.arrange (o.arrange bytes) = bytes := by
  cases o <;> simp [arrange]

@[simp]
theorem length_arrange (o : ByteOrder) (bytes : List UInt8) :
    (o.arrange bytes).length = bytes.length := by
  cases o <;> simp [arrange]

/-- The number written by `bytes` in this order. -/
def toNat (o : ByteOrder) (bytes : List UInt8) : Nat := ofLittleEndian (o.arrange bytes)

end ByteOrder

namespace FieldType

/-- Whether a field of this type holds the value. -/
def Fits (t : FieldType) (v : LinkValue) : Prop := t.min ≤ v.toInt ∧ v.toInt ≤ t.max

instance (t : FieldType) (v : LinkValue) : Decidable (t.Fits v) :=
  inferInstanceAs (Decidable (_ ∧ _))

/-- The bytes of `v` in a field of type `t`; a value outside the range of the type is an error. -/
def encodeValue (t : FieldType) (v : LinkValue) (order : ByteOrder) :
    Except EncodeError (List UInt8) :=
  if t.Fits v then .ok (order.arrange (littleEndian t.width v.toNat))
  else .error (.encodingOverflow v (.field t))

/-- The value of a field of type `t` with the given bytes. -/
def decodeValue (t : FieldType) (order : ByteOrder) (bytes : List UInt8) : LinkValue :=
  let word := BitVec.ofNat t.bits (order.toNat bytes)
  if t.signed then word.signExtend 128 else word.setWidth 128

end FieldType

end PortableImage
