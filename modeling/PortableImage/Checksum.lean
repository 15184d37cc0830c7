import PortableImage.Coff.Format
import PortableImage.Field.Value

/-!
# The checksum of an image

The checksum in the optional header covers the headers and the contents of all sections, the field
itself counting as zero: the 16-bit halves are added with end-around carry, and the number of bytes
is added to the sum.

* `ImageReader` — reads numbers out of the bytes of an image.
* `checkedBytes` — the bytes that are added up.
* `foldedSum` — the sum of the halves.
* `checksum` — the checksum of an image, or the part that lies outside its bytes.
-/

set_option autoImplicit false

namespace PortableImage

/-- The bytes of an image and its byte order. -/
structure ImageReader where
  data : List UInt8
  order : ByteOrder

namespace ImageReader

/-- The bytes of a part of the image. -/
def bytes (r : ImageReader) (offset len : Nat) (part : ImagePart) :
    Except EncodeError (List UInt8) :=
  if offset + len ≤ r.data.length then .ok ((r.data.drop offset).take len)
  else .error (.truncatedImage part offset)

/-- A number of `width` bytes. -/
def number (r : ImageReader) (width offset : Nat) (part : ImagePart) : Except EncodeError Nat :=
  return r.order.toNat (← r.bytes offset width part)

/-- A number of 16 bits. -/
def half (r : ImageReader) (offset : Nat) (part : ImagePart) : Except EncodeError Nat :=
  r.number 2 offset part

/-- A number of 32 bits. -/
def word (r : ImageReader) (offset : Nat) (part : ImagePart) : Except EncodeError Nat :=
  r.number 4 offset part

/-- Where the file header is: behind the signature if the image starts with a DOS header, else at
its start. -/
def fileHeaderOffset (r : ImageReader) : Except EncodeError Nat :=
  if r.data.take 2 = dosSignature then do
    let offset ← r.word headerOffsetPosition .headerOffset
    let signature ← r.bytes offset 4 .signature
    if signature = peSignature then return offset + 4
    else .error (.truncatedImage .signature offset)
  else .ok 0

/-- The contents of the sections whose headers start at `offset`, one after the other. -/
def sectionBytes (r : ImageReader) : (count offset : Nat) → Except EncodeError (List (List UInt8))
  | 0, _ => .ok []
  | count + 1, offset => do
    let size ← r.word (offset + 16) .sectionRawSize
    let address ← r.word (offset + 20) .sectionRawAddress
    let content ← r.bytes address size .sectionData
    let others ← r.sectionBytes count (offset + sectionHeaderSize)
    return content :: others

/-- The bytes that the checksum covers: the headers, with zeros for the checksum if it lies in them,
and the sections. -/
def checkedBytes (r : ImageReader) : Except EncodeError (List UInt8) := do
  let header ← r.fileHeaderOffset
  let count ← r.half (header + 2) .sectionCount
  let optionalSize ← r.half (header + 16) .optionalHeaderSize
  let optional := header + fileHeaderSize
  let headersSize ← r.word (optional + headersSizePosition) .headersSize
  let headers ← r.bytes 0 headersSize .headers
  let field := optional + checksumPosition
  let headers :=
    if field + 4 ≤ headers.length then
      headers.take field ++ List.replicate 4 0 ++ headers.drop (field + 4)
    else headers
  let sections ← r.sectionBytes count (optional + optionalSize)
  return headers ++ sections.flatten

end ImageReader

/-- The 16-bit halves of the bytes; a byte left over is followed by zero. -/
def halves (order : ByteOrder) : List UInt8 → List Nat
  | [] => []
  | [b] => [order.toNat [b, 0]]
  | a :: b :: rest => order.toNat [a, b] :: halves order rest

/-- Adds a half, and the carry out of 16 bits to the low end. -/
def addHalf (sum half : Nat) : Nat :=
  (sum + half) % UInt16.size + (sum + half) / UInt16.size

/-- The sum of halves, with end-around carry. -/
def foldedSum (hs : List Nat) : Nat := hs.foldl addHalf 0

/-- The checksum of an image. -/
def checksum (data : List UInt8) (order : ByteOrder) : Except EncodeError UInt32 := do
  let covered ← ImageReader.checkedBytes ⟨data, order⟩
  return UInt32.ofNat (foldedSum (halves order covered) + covered.length)

end PortableImage
