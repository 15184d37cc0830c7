/-!
# Types of fields

An integer field of an image has a width of one, two, four or eight bytes and is read either as an
unsigned number or in two's complement; all fields of one image share a byte order.

* `FieldType` — the eight types, with their `width`, their `name` and their range `min … max`.
* `ByteOrder` — which end of a number is written first.
-/

set_option autoImplicit false

namespace PortableImage

/-- Which byte of a number comes first. -/
inductive ByteOrder
  | little
  | big
  deriving DecidableEq, Inhabited

/-- The type of an integer field: `u` for unsigned, `i` for two's complement, then its bits. -/
inductive FieldType
  | u8 | u16 | u32 | u64
  | i8 | i16 | i32 | i64
  deriving DecidableEq, Inhabited

namespace FieldType

/-- The bytes a field of this type takes. -/
def width : FieldType → Nat
  | u8 | i8 => 1
  | u16 | i16 => 2
  | u32 | i32 => 4
  | u64 | i64 => 8

/-- Whether the field is read in two's complement. -/
def signed : FieldType → Bool
  | u8 | u16 | u32 | u64 => false
  | i8 | i16 | i32 | i64 => true

/-- The bits of a field of this type. -/
def bits (t : FieldType) : Nat := 8 * t.width

/-- How many values a field of this type can hold. -/
def span : FieldType → Nat
  | u8 | i8 => UInt8.size
  | u16 | i16 => UInt16.size
  | u32 | i32 => UInt32.size
  | u64 | i64 => UInt64.size

/-- The least value the field holds. -/
def min (t : FieldType) : Int := if t.signed then -((t.span / 2 : Nat) : Int) else 0

/-- The largest value the field holds. -/
def max (t : FieldType) : Int :=
  if t.signed then ((t.span / 2 : Nat) : Int) - 1 else (t.span : Int) - 1

/-- The name of the type in messages. -/
def name : FieldType → String
  | u8 => "u8"
  | u16 => "u16"
  | u32 => "u32"
  | u64 => "u64"
  | i8 => "i8"
  | i16 => "i16"
  | i32 => "i32"
  | i64 => "i64"

theorem width_pos (t : FieldType) : 0 < t.width := by cases t <;> decide

end FieldType

end PortableImage
