import PortableImage.Buffer

/-!
# Writing fields

All fields of one image share a byte order, and whether addresses take 64 or 32 bits.  A field whose
value is a constant is written at once; any other stays pending, with its value in normal form.

* `FieldEncoder` — the two choices.
* `FieldEncoder.encode` — one field.
* `Record`, `FieldEncoder.record` — fields one behind the other; headers and table entries are
  records.
-/

set_option autoImplicit false

namespace PortableImage

/-- The byte order of an image and the width of its addresses. -/
structure FieldEncoder where
  order : ByteOrder
  /-- Whether addresses take 64 bits. -/
  pe64 : Bool
  deriving DecidableEq

/-- The types and values of fields that follow each other. -/
abbrev Record := List (FieldType × Expr)

namespace FieldEncoder

/-- The type of a field that holds an address. -/
def addressType (f : FieldEncoder) : FieldType := if f.pe64 then .u64 else .u32

/-- The bit that marks an import by ordinal in a lookup table: the top bit of an address. -/
def ordinalFlag (f : FieldEncoder) : UInt64 :=
  if f.pe64 then 0x8000000000000000 else 0x80000000

/-- A field of the given type: its bytes if the value is a constant, else zeros and a pending
field. -/
def encode (f : FieldEncoder) (type : FieldType) (value : Expr) : Except EncodeError Buffer :=
  let reduced := value.reduce
  match reduced.constant? with
  | some v => return .ofBytes (← type.encodeValue v f.order)
  | none => .ok (.placeholder reduced type f.order)

/-- A field that holds an address. -/
def address (f : FieldEncoder) (value : Expr) : Except EncodeError Buffer :=
  f.encode f.addressType value

/-- Fields one behind the other. -/
def record (f : FieldEncoder) : Record → Except EncodeError Buffer
  | [] => .ok .empty
  | (type, value) :: rest => do
    let first ← f.encode type value
    let others ← f.record rest
    return first ++ others

end FieldEncoder

end PortableImage
