import PortableImage.Binding
import PortableImage.Field.Value
import PortableImage.OffsetMap
import PortableImage.Rounding

/-!
# Buffers

A buffer is a piece of an image under construction: bytes, a number of zero bytes behind them that
are not written out yet, fields whose values are still pending, and labels for some of its offsets.

* `Buffer` — with its two sizes: `rawSize` counts the bytes, `virtSize` also the zeros behind them.
* `Buffer.append` — one buffer behind another; offsets of the second move up.
* `Buffer.slice`, `Buffer.patch` — a range of a buffer, and a buffer written over a range.
* `Buffer.binding` — the labels as addresses; `Buffer.fixup` — writes the pending fields that a
  binding gives values to.
-/

set_option autoImplicit false

namespace PortableImage

/-- A field whose value is not known yet. -/
structure PendingField where
  target : Expr
  type : FieldType
  order : ByteOrder
  deriving DecidableEq

/-- A piece of an image: bytes, zeros behind them, pending fields and labelled offsets. -/
structure Buffer where
  data : List UInt8
  /-- How many zero bytes follow the data without being written out. -/
  tail : Nat
  fields : OffsetMap PendingField
  /-- The labels with their offsets, in the order they were added. -/
  exports : List (String × Nat)
  deriving DecidableEq

/-- `data` with zeros behind it up to the size, if it is shorter. -/
def padTo (size : Nat) (data : List UInt8) : List UInt8 :=
  data ++ List.replicate (size - data.length) 0

/-- `data` with `bytes` instead of what is at the offset. -/
def overwrite (data : List UInt8) (offset : Nat) (bytes : List UInt8) : List UInt8 :=
  data.take offset ++ bytes ++ data.drop (offset + bytes.length)

@[simp]
theorem length_padTo (size : Nat) (data : List UInt8) :
    (padTo size data).length = max size data.length := by
  rw [padTo, List.length_append, List.length_replicate]
  omega

theorem length_overwrite {data : List UInt8} {offset : Nat} {bytes : List UInt8}
    (h : offset + bytes.length ≤ data.length) :
    (overwrite data offset bytes).length = data.length := by
  rw [overwrite, List.length_append, List.length_append, List.length_take, List.length_drop]
  omega

namespace Buffer

/-- The buffer without content. -/
def empty : Buffer := ⟨[], 0, .empty, []⟩

instance : Inhabited Buffer := ⟨empty⟩

/-- A buffer of bytes alone. -/
def ofBytes (data : List UInt8) : Buffer := ⟨data, 0, .empty, []⟩

/-- A field that is to hold the value of `target`, zero for now. -/
def placeholder (target : Expr) (type : FieldType) (order : ByteOrder) : Buffer where
  data := List.replicate type.width 0
  tail := 0
  fields := .singleton 0 ⟨target, type, order⟩
  exports := []

/-- The number of bytes written out. -/
def rawSize (b : Buffer) : Nat := b.data.length

/-- The number of bytes, with the zeros that are not written out. -/
def virtSize (b : Buffer) : Nat := b.data.length + b.tail

/-- Whether the buffer takes no space. -/
def isEmpty (b : Buffer) : Bool := b.virtSize == 0

/-- The bytes, all written out. -/
def contents (b : Buffer) : List UInt8 := b.data ++ List.replicate b.tail 0

/-- The buffer with its zeros written out. -/
def fill (b : Buffer) : Buffer := { b with data := b.contents, tail := 0 }

/-- The buffer with zeros behind it up to the size, if it is smaller. -/
def growTo (b : Buffer) (size : Nat) : Buffer :=
  { b with tail := max b.virtSize size - b.data.length }

/-- The buffer with zeros behind it up to a multiple of the boundary. -/
def align (b : Buffer) (boundary : Nat) : Buffer := b.growTo (alignSize b.virtSize boundary)

/-- Labels an offset. -/
def addExport (b : Buffer) (name : String) (offset : Nat) : Buffer :=
  { b with exports := b.exports ++ [(name, offset)] }

/-- The first label of an offset. -/
def exportAt (b : Buffer) (offset : Nat) : Option String :=
  (b.exports.find? fun e => e.2 == offset).map (·.1)

/-- The first offset of a label. -/
def exportOffset (b : Buffer) (name : String) : Option Nat := b.exports.lookup name

/-- Makes what is at the offset a pending field. -/
def addField (b : Buffer) (offset : Nat) (field : PendingField) : Buffer :=
  { b with fields := b.fields.insert offset field }

/-- Bytes behind the buffer. -/
def extend (b : Buffer) (bytes : List UInt8) : Buffer :=
  { b with data := b.contents ++ bytes, tail := 0 }

/-- The second buffer behind the first. -/
def append (a b : Buffer) : Buffer where
  data := a.contents ++ b.data
  tail := b.tail
  fields := a.fields.insertAll (b.fields.shift a.virtSize)
  exports := a.exports ++ b.exports.map fun e => (e.1, e.2 + a.virtSize)

instance : Append Buffer := ⟨append⟩

/-- Buffers one behind the other. -/
def concat (bs : List Buffer) : Buffer := bs.foldr append empty

/-- The `len` bytes from `offset` on, with the pending fields that lie wholly in the range and the
labels of its offsets, its end included. -/
def slice (b : Buffer) (offset len : Nat) : Buffer where
  data := (b.data.drop offset).take len
  tail := min len (b.virtSize - offset) - ((b.data.drop offset).take len).length
  fields :=
    (b.fields.filter fun k f =>
      k < offset + len && k + f.type.width ≤ offset + len).dropBelow offset
  exports := (b.exports.filter fun e => offset ≤ e.2 && e.2 ≤ offset + len).map fun e =>
    (e.1, e.2 - offset)

/-- The buffer with `other` written over what is at the offset, its pending fields included; the
labels of `other` are left out. -/
def patch (b : Buffer) (offset : Nat) (other : Buffer) : Buffer :=
  let stop := offset + other.virtSize
  let data := padTo stop b.data
  { data := overwrite data offset other.contents
    tail := max b.virtSize stop - data.length
    fields := (b.fields.filter fun k _ => k < offset || stop ≤ k).insertAll
      (other.fields.shift offset)
    exports := b.exports }

/-! ## Sizes and bytes of what the operations give -/

@[simp]
theorem length_contents (b : Buffer) : b.contents.length = b.virtSize := by
  rw [contents, List.length_append, List.length_replicate, virtSize]

theorem rawSize_le_virtSize (b : Buffer) : b.rawSize ≤ b.virtSize := Nat.le_add_right _ _

@[simp]
theorem contents_append (a b : Buffer) : (a ++ b).contents = a.contents ++ b.contents :=
  List.append_assoc _ _ _

@[simp]
theorem virtSize_append (a b : Buffer) : (a ++ b).virtSize = a.virtSize + b.virtSize := by
  rw [← length_contents, contents_append, List.length_append, length_contents, length_contents]

@[simp]
theorem contents_fill (b : Buffer) : b.fill.contents = b.contents := List.append_nil _

@[simp]
theorem contents_extend (b : Buffer) (bytes : List UInt8) :
    (b.extend bytes).contents = b.contents ++ bytes := List.append_nil _

@[simp]
theorem virtSize_growTo (b : Buffer) (size : Nat) :
    (b.growTo size).virtSize = max b.virtSize size := by
  show b.data.length + (max (b.data.length + b.tail) size - b.data.length) = _
  rw [virtSize]
  omega

/-! ## Labels and pending fields -/

/-- The labels of the buffer, when it lies at `base`. -/
def addresses (b : Buffer) (base : Expr) : List (String × Expr) :=
  b.exports.map fun e => (e.1, (base + Expr.ofSize e.2).reduce)

/-- The labels of the buffer as values, when it lies at `base`; a label that occurs twice is an
error. -/
def binding (b : Buffer) (base : Expr) : Except EncodeError Binding :=
  Binding.empty.bindAll (b.addresses base)

/-- The fields that the binding gives values to, as bytes.  The first value that does not fit its
field is an error. -/
def resolvedFields (binding : Binding) :
    List (Nat × PendingField) → Except EncodeError (List (Nat × List UInt8))
  | [] => .ok []
  | (offset, field) :: rest =>
    match field.target.constantUnder binding with
    | none => resolvedFields binding rest
    | some value => do
      let bytes ← field.type.encodeValue value field.order
      let others ← resolvedFields binding rest
      return (offset, bytes) :: others

/-- Writes one field, which is then no longer pending. -/
def writeField (b : Buffer) (offset : Nat) (bytes : List UInt8) : Buffer :=
  let data := padTo (offset + bytes.length) b.data
  { b with
    data := overwrite data offset bytes
    tail := max b.virtSize (offset + bytes.length) - data.length
    fields := b.fields.filter fun k _ => k != offset }

/-- Writes every pending field that the binding gives a value to; the others stay pending.  Nothing
is written if some value does not fit. -/
def fixup (b : Buffer) (binding : Binding) : Except EncodeError Buffer := do
  let resolved ← resolvedFields binding b.fields.entries
  return resolved.foldl (fun acc e => acc.writeField e.1 e.2) b

end Buffer

end PortableImage
